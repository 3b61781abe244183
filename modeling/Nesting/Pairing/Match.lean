import Nesting.Pairing.Site
import Nesting.Pending

/-!
# Pairing delimiters

Openers wait until a closer of their kind comes. A closer that finds none is passed over, and the
openers between a closer and its own opener are given up. Pairs come in the order of their
closers.
-/

namespace Nesting

/-- The pairs made so far and the openers that wait. -/
structure Matching where
  pending : Pending
  /-- Newest first. -/
  found : List Pair
  deriving DecidableEq, Repr

namespace Matching

def initial : Matching := ⟨.empty, []⟩

/-- The matching after a delimiter. An opener is as deep as the openers that wait around it. -/
def step (s : Matching) (x : Site) : Matching :=
  let d := x.delimiter s.pending.depth
  match x.side with
  | .opening => { s with pending := s.pending.push d }
  | .closing =>
    -- The depth given to `d` here is replaced by that of its opener.
    match s.pending.close? d with
    | some (pair, rest) => ⟨rest, pair :: s.found⟩
    | none => s

/-- The matching after all delimiters. -/
def run (xs : List Site) : Matching :=
  xs.foldl step initial

@[simp] theorem run_nil : run [] = initial := rfl

theorem run_append (xs ys : List Site) : run (xs ++ ys) = ys.foldl step (run xs) := by
  simp [run]

end Matching

/-- The pairs of a list of delimiters, in the order of their closers. -/
def pairUp (xs : List Site) : List Pair :=
  (Matching.run xs).found.reverse

/-- The pairs of a text whose angle brackets are delimiters where `marks` says so. -/
def matchDelimiters (g : Grammar) (marks : List AngleMark) (text : List UInt8) : List Pair :=
  pairUp (sites marks (cells g text))

end Nesting
