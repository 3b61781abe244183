import Nesting.Bracket
import Nesting.Position.Text

/-!
# Angle marks

An angle mark says that the angle bracket at a place is a delimiter, and no comparison, shift or
arrow. A list of marks is trimmed by deleting the openers that no closer answers, the last first.
-/

namespace Nesting

/-- An angle bracket that is taken for a delimiter. -/
structure AngleMark where
  side : Side
  position : Position
  deriving DecidableEq, Repr

namespace AngleMark

/-- The sign with its place. -/
def text (m : AngleMark) : String :=
  (Bracket.angle.character m.side).toString ++ m.position.text

/-! ## 1. One deletion -/

/-- Deletes the first opener of a list, newest mark first, that no closer answers. `closers`
counts the closers already passed that still wait for their opener. -/
def dropUnclosed? (closers : Nat) : List AngleMark → Option (List AngleMark)
  | [] => none
  | m :: older =>
    match m.side with
    | .closing => (dropUnclosed? (closers + 1) older).map (m :: ·)
    | .opening =>
      match closers with
      | 0 => some older
      | n + 1 => (dropUnclosed? n older).map (m :: ·)

/-- A deletion shortens the list by one mark. -/
theorem length_of_dropUnclosed? {closers : Nat} {marks rest : List AngleMark}
    (h : dropUnclosed? closers marks = some rest) : rest.length + 1 = marks.length := by
  induction marks generalizing closers rest with
  | nil => simp [dropUnclosed?] at h
  | cons m older ih =>
    unfold dropUnclosed? at h
    split at h
    · obtain ⟨r, hr, rfl⟩ := Option.map_eq_some_iff.1 h
      simp [ih hr]
    · split at h
      · simp only [Option.some.injEq] at h
        simp [h]
      · obtain ⟨r, hr, rfl⟩ := Option.map_eq_some_iff.1 h
        simp [ih hr]

/-- Deletes the last opener that no closer after it answers, if there is one. -/
def trim? (marks : List AngleMark) : Option (List AngleMark) :=
  (dropUnclosed? 0 marks.reverse).map List.reverse

theorem length_of_trim? {marks rest : List AngleMark} (h : trim? marks = some rest) :
    rest.length + 1 = marks.length := by
  unfold trim? at h
  obtain ⟨r, hr, rfl⟩ := Option.map_eq_some_iff.1 h
  simpa using length_of_dropUnclosed? hr

/-! ## 2. All deletions -/

/-- The lists after one deletion, after two and so on, until nothing is left to delete. -/
def trimSteps (marks : List AngleMark) : List (List AngleMark) :=
  match found : trim? marks with
  | none => []
  | some rest =>
    have := length_of_trim? found
    rest :: trimSteps rest
termination_by marks.length

/-- Deletes every opener that no closer answers from a list, newest mark first, and counts the
deletions. -/
def settle (newest : List AngleMark) : List AngleMark × Nat :=
  match found : dropUnclosed? 0 newest with
  | none => (newest, 0)
  | some rest =>
    have := length_of_dropUnclosed? found
    (settle rest).map id (· + 1)
termination_by newest.length

end AngleMark

end Nesting
