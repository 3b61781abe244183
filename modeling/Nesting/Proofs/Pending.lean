import Mathlib.Data.List.TakeWhile
import Nesting.Pending

/-!
# What a closer does to the pending openers

A closer either finds the innermost opener of its kind, and then leaves the openers around that
one, or finds none.
-/

namespace Nesting.Pending

theorem openers_eq_of_toList {s : Pending} {below above : List Delimiter} {o : Delimiter}
    (hs : s.toList = below ++ o :: above) : s.openers = above.reverse ++ o :: below.reverse := by
  have hrev : s.openers = s.toList.reverse := (List.reverse_reverse _).symm
  rw [hrev, hs, List.reverse_append, List.reverse_cons, List.append_assoc, List.singleton_append]

theorem find?_eq_some {s : Pending} {below above : List Delimiter} {o : Delimiter}
    (hs : s.toList = below ++ o :: above) (habove : ∀ e ∈ above, e.character ≠ o.character) :
    s.find? o.character = some (o, ⟨below.reverse⟩) := by
  have hskip : ∀ e ∈ above.reverse, (e.character != o.character) = true := by
    intro e he
    rw [bne_iff_ne]
    exact habove e (List.mem_reverse.mp he)
  unfold find?
  rw [openers_eq_of_toList hs, List.dropWhile_append_of_pos hskip,
    List.dropWhile_cons_of_neg (by simp)]
  rfl

theorem find?_eq_none {s : Pending} {c : Char} (hs : ∀ e ∈ s.toList, e.character ≠ c) :
    s.find? c = none := by
  have hskip : s.openers.dropWhile (fun d => d.character != c) = [] := by
    rw [List.dropWhile_eq_nil_iff]
    intro e he
    rw [bne_iff_ne]
    exact hs e (List.mem_reverse.mpr he)
  unfold find?
  rw [hskip]
  rfl

-- The closer takes the innermost opener of its kind and its depth, and the openers after that one
-- are given up.
theorem close?_eq_some {s : Pending} {below above : List Delimiter} {o d : Delimiter}
    (hs : s.toList = below ++ o :: above)
    (hd : Bracket.opener? d.character = some o.character)
    (habove : ∀ e ∈ above, e.character ≠ o.character) :
    s.close? d = some (⟨o, { d with depth := o.depth }⟩, ⟨below.reverse⟩) := by
  unfold close?
  rw [hd, Option.bind_eq_bind, Option.bind_some, find?_eq_some hs habove]
  rfl

-- Straight after an opener its closer finds it on top.
theorem close?_push (s : Pending) {o d : Delimiter}
    (hd : Bracket.opener? d.character = some o.character) :
    (s.push o).close? d = some (⟨o, { d with depth := o.depth }⟩, s) := by
  rw [close?_eq_some (s.toList_push o) hd (fun e he => absurd he List.not_mem_nil)]
  simp only [toList, List.reverse_reverse]

theorem close?_eq_none {s : Pending} {d : Delimiter} {c : Char}
    (hd : Bracket.opener? d.character = some c) (hs : ∀ e ∈ s.toList, e.character ≠ c) :
    s.close? d = none := by
  unfold close?
  rw [hd, Option.bind_eq_bind, Option.bind_some, find?_eq_none hs]
  rfl

-- The closer of the pair stands where the closer stood.
theorem position_of_close? {s rest : Pending} {d : Delimiter} {p : Pair}
    (h : s.close? d = some (p, rest)) : p.closer.position = d.position := by
  unfold close? at h
  rw [Option.bind_eq_bind, Option.bind_eq_some_iff] at h
  obtain ⟨wanted, -, h⟩ := h
  rw [Option.bind_eq_bind, Option.bind_eq_some_iff] at h
  obtain ⟨found, -, h⟩ := h
  cases h
  rfl

end Nesting.Pending
