import Nesting.Error

/-!
# Word-sized counters

Lines, columns and margins are 64-bit unsigned counters. They are kept as natural numbers, and an
addition whose result does not fit a word is an error, never a wrapped value.
-/

namespace Nesting.Word

/-- The first number that does not fit a word. -/
def limit : Nat := Nat.pow 2 64

/-- The sum of two words, if it is a word. -/
def add (a b : Nat) : Except Error Nat :=
  if a + b < limit then .ok (a + b) else .error .overflow

theorem add_eq_ok_iff {a b c : Nat} : add a b = .ok c ↔ a + b = c ∧ c < limit := by
  unfold add
  split
  · simp only [Except.ok.injEq]; omega
  · simp only [reduceCtorEq, false_iff]; omega

theorem add_eq_overflow_iff {a b : Nat} : add a b = .error .overflow ↔ limit ≤ a + b := by
  unfold add
  split
  · simp only [reduceCtorEq, false_iff]; omega
  · simp only [true_iff]; omega

end Nesting.Word
