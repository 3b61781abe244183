import Nesting.Byte
import Nesting.Word

/-!
# Operations that can fail

On words an addition can overflow and a subtraction can go below zero, a look-up in a list can miss
it, and a list may find no room to grow. The programs of this folder do with such operations what
the definitions on natural numbers and lists do without, so that a run of them that ends is one in
which nothing of this happened.
-/

namespace Nesting

/-- What can stop a run on words. -/
inductive Fault where
  | overflow
  | underflow
  | outOfBounds
  | outOfMemory (collecting : Collection)
  deriving DecidableEq, Repr

namespace Checked

/-! ## 1. Arithmetic and look-ups -/

def add (a b : Nat) : Except Fault Nat :=
  (Word.add a b).mapError fun _ => .overflow

def sub (a b : Nat) : Except Fault Nat :=
  if b ≤ a then .ok (a - b) else .error .underflow

def get {α : Type} (l : List α) (i : Nat) : Except Fault α :=
  match l[i]? with
  | some x => .ok x
  | none => .error .outOfBounds

/-- The byte at a distance before an offset, if there is one. -/
def byteBefore (text : List UInt8) (i distance : Nat) : Except Fault (Option UInt8) :=
  if distance ≤ i then some <$> get text (i - distance) else .ok none

/-- Whether the byte before an offset is `b`. -/
def follows (text : List UInt8) (i : Nat) (b : UInt8) : Except Fault Bool := do
  if 0 < i then
    let before ← sub i 1
    let last ← get text before
    return last == b
  else return false

theorem add_eq_ok {a b : Nat} (h : a + b < Word.limit) : add a b = .ok (a + b) := by
  unfold add
  rw [Word.add_eq_ok_iff.mpr ⟨rfl, h⟩]
  rfl

theorem sub_eq_ok {a b : Nat} (h : b ≤ a) : sub a b = .ok (a - b) :=
  if_pos h

theorem get_eq_ok {α : Type} {l : List α} {i : Nat} {x : α} (h : l[i]? = some x) :
    get l i = .ok x := by
  unfold get
  rw [h]

theorem ok_bind {α β : Type} (a : α) (f : α → Except Fault β) : (Except.ok a >>= f) = f a := rfl

theorem bind_eq_ok {α β : Type} {x : Except Fault α} {f : α → Except Fault β} {b : β} :
    (x >>= f) = .ok b ↔ ∃ a, x = .ok a ∧ f a = .ok b := by
  cases x with
  | error fault =>
    refine ⟨fun h => ?_, fun ⟨a, ha, _⟩ => ?_⟩
    · cases h
    · cases ha
  | ok a => exact ⟨fun h => ⟨a, rfl, h⟩, fun ⟨_, ha, h⟩ => by cases ha; exact h⟩

theorem pure_eq_ok {α : Type} (a : α) : (pure a : Except Fault α) = .ok a := rfl

section

variable {text : List UInt8} {i : Nat} {b : UInt8} {last : Option UInt8}

theorem byteBefore_succ (hb : text[i]? = some b) : byteBefore text (i + 1) 1 = .ok (some b) := by
  unfold byteBefore
  rw [if_pos (Nat.le_add_left 1 i), Nat.add_sub_cancel, get_eq_ok hb]
  rfl

theorem one_le_of_byteBefore (h : byteBefore text i 1 = .ok (some b)) : 1 ≤ i := by
  by_cases hi : 1 ≤ i
  · exact hi
  · unfold byteBefore at h
    rw [if_neg hi] at h
    cases h

theorem follows_eq_ok (h : byteBefore text i 1 = .ok last) :
    follows text i b = .ok (last == some b) := by
  unfold byteBefore at h
  unfold follows
  by_cases hi : 1 ≤ i
  · rw [if_pos hi] at h
    rw [if_pos (show 0 < i from hi), sub_eq_ok hi, ok_bind]
    cases hget : get text (i - 1) with
    | error f =>
      rw [hget] at h
      cases h
    | ok c =>
      rw [hget] at h
      rw [← Except.ok.inj h, Option.some_beq_some]
      rfl
  · rw [if_neg hi] at h
    rw [if_neg (show ¬ 0 < i from hi), ← Except.ok.inj h]
    rfl

end

/-! ## 2. Lists that grow -/

/-- One more element of a list of `n`, if there is room for it. -/
def reserve (room : Collection → Nat → Bool) (what : Collection) (n : Nat) : Except Fault Unit :=
  if room what n then .ok () else .error (.outOfMemory what)

/-- A run ends with a result as wanted. Only a lack of room can stop it, and no other fault. -/
def Yields {α : Type} (room : Collection → Nat → Bool) (x : Except Fault α) (wanted : α → Prop) :
    Prop :=
  (∃ a, x = .ok a ∧ wanted a) ∨ ∃ what n, room what n = false ∧ x = .error (.outOfMemory what)

section

variable {α β : Type} {room : Collection → Nat → Bool} {x : Except Fault α} {wanted : α → Prop}

theorem yields_ok {a : α} (h : wanted a) : Yields room (.ok a) wanted :=
  .inl ⟨a, rfl, h⟩

theorem Yields.bind {f : α → Except Fault β} {after : β → Prop} (h : Yields room x wanted)
    (hf : ∀ a, wanted a → Yields room (f a) after) : Yields room (x >>= f) after := by
  rcases h with ⟨a, rfl, ha⟩ | ⟨what, n, hfull, rfl⟩
  · exact hf a ha
  · exact .inr ⟨what, n, hfull, rfl⟩

theorem Yields.mono {wider : α → Prop} (h : Yields room x wanted)
    (hwider : ∀ a, wanted a → wider a) : Yields room x wider := by
  rcases h with ⟨a, hx, ha⟩ | hfull
  · exact .inl ⟨a, hx, hwider a ha⟩
  · exact .inr hfull

theorem yields_reserve (room : Collection → Nat → Bool) (what : Collection) (n : Nat) :
    Yields room (reserve room what n) fun _ => True := by
  unfold reserve
  by_cases hroom : room what n = true
  · rw [if_pos hroom]
    exact yields_ok trivial
  · rw [if_neg hroom]
    exact .inr ⟨what, n, Bool.eq_false_iff.mpr hroom, rfl⟩

/-- Where there is room for everything, the run ends. -/
theorem Yields.eq_ok {a : α} (h : Yields room x (· = a)) (hroom : ∀ what n, room what n = true) :
    x = .ok a := by
  rcases h with ⟨a', hx, rfl⟩ | ⟨what, n, hfull, -⟩
  · exact hx
  · rw [hroom what n] at hfull
    cases hfull

end

end Checked

end Nesting
