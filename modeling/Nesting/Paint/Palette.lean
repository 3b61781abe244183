/-!
# Palettes

The colors of delimiters and scopes, repeated as nesting goes deeper.
-/

namespace Nesting

/-- The colors by nesting depth. -/
structure Palette where
  foreground : List String
  background : List String
  deriving DecidableEq, Repr

namespace Palette

/-- The argument that stands between foreground and background colors. -/
def separator : String := "!"

/-- The colors before the first separator are for the foreground, those after it for the
background. -/
def ofArguments (colors : List String) : Palette where
  foreground := colors.takeWhile (· != separator)
  background := (colors.dropWhile (· != separator)).drop 1

/-- A color list that is empty is taken from `fallback`. -/
def orElse (p fallback : Palette) : Palette where
  foreground := if p.foreground.isEmpty then fallback.foreground else p.foreground
  background := if p.background.isEmpty then fallback.background else p.background

/-- The color of a depth when the colors repeat. -/
def cycle (colors : List String) (depth : Nat) : Option String :=
  colors[depth % colors.length]?

/-- The color of the delimiters of a depth. -/
def foregroundAt (p : Palette) (depth : Nat) : Option String :=
  cycle p.foreground depth

/-- The color behind the pairs of a depth. -/
def backgroundAt (p : Palette) (depth : Nat) : Option String :=
  cycle p.background depth

/-- Only an empty list has no color for a depth. -/
theorem cycle_eq_none_iff {colors : List String} {depth : Nat} :
    cycle colors depth = none ↔ colors = [] := by
  unfold cycle
  rw [List.getElem?_eq_none_iff]
  constructor
  · intro h
    cases colors with
    | nil => rfl
    | cons c cs =>
      have := Nat.mod_lt depth (show 0 < (c :: cs).length by simp)
      omega
  · rintro rfl
    simp

end Palette

end Nesting
