import Nesting.Lexer.Transition
import Nesting.Position.Basic

/-!
# Cells

A cell is a byte of the text with its place and its class. Everything after the lexer works on
the list of cells and never on the bytes, so it cannot look into comments and literals by mistake.
-/

namespace Nesting

/-- A byte with its place and class. -/
structure Cell where
  byte : UInt8
  position : Position
  kind : ByteClass
  deriving DecidableEq, Repr

/-- The lexer together with the place of the byte to come. -/
structure Reader where
  lexer : Lexer
  position : Position
  deriving DecidableEq, Repr

namespace Reader

/-- The reader before the first byte. -/
def initial : Reader := ⟨Lexer.initial, Position.start⟩

/-- The reader after the byte `b`. -/
def advance (g : Grammar) (r : Reader) (b : UInt8) : Reader :=
  ⟨r.lexer.advance g b, r.position.advance b⟩

/-- The byte `b` as it is found by the reader. -/
def cell (g : Grammar) (r : Reader) (b : UInt8) : Cell :=
  ⟨b, r.position, r.lexer.classify g b⟩

/-- The cells of a text that starts at the reader. -/
def cells (g : Grammar) (r : Reader) (text : List UInt8) : List Cell :=
  List.zipWith (cell g) (text.scanl (advance g) r) text

@[simp] theorem cells_nil (g : Grammar) (r : Reader) : r.cells g [] = [] := by
  simp [cells]

@[simp] theorem cells_cons (g : Grammar) (r : Reader) (b : UInt8) (text : List UInt8) :
    r.cells g (b :: text) = r.cell g b :: (r.advance g b).cells g text := by
  simp [cells]

theorem cells_append (g : Grammar) (r : Reader) (text more : List UInt8) :
    r.cells g (text ++ more) = r.cells g text ++ (text.foldl (advance g) r).cells g more := by
  induction text generalizing r with
  | nil => simp
  | cons b text ih => simp [ih]

end Reader

/-- The cells of a whole text. -/
def cells (g : Grammar) (text : List UInt8) : List Cell :=
  Reader.initial.cells g text

@[simp] theorem length_cells (g : Grammar) (text : List UInt8) :
    (cells g text).length = text.length := by
  simp [cells, Reader.cells]

end Nesting
