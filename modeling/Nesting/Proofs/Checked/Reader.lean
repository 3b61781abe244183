import Nesting.Proofs.Checked.Lexer

/-!
# Reading a text with checked operations

Both passes over a text read it byte by byte, with the index, the lexer and the place of the byte to
come, and differ in what they do with a cell. What one cell keeps true, the whole pass keeps true.
-/

namespace Nesting.Checked

/-! ## 1. Places -/

/-- Every place of a text has a line and a column that its offset bounds. -/
theorem placeAt_le {text : List UInt8} {i : Nat} (hi : i ≤ text.length) :
    (placeAt text i).line ≤ i + 1 ∧ (placeAt text i).column ≤ i + 1 := by
  induction i with
  | zero => exact ⟨Nat.le_refl 1, Nat.le_refl 1⟩
  | succ i ih =>
    have hbound := ih (by omega)
    rw [placeAt_succ hi]
    unfold Position.advance
    split
    · show (placeAt text i).line + 1 ≤ i + 1 + 1 ∧ 1 ≤ i + 1 + 1
      omega
    · show (placeAt text i).line ≤ i + 1 + 1 ∧ (placeAt text i).column + 1 ≤ i + 1 + 1
      omega

/-- The place of the byte after `b`. -/
def advance (p : Position) (b : UInt8) : Except Fault Position :=
  (p.advanceWord b).mapError fun _ => .overflow

theorem advance_eq_ok {p : Position} (hline : p.line + 1 < Word.limit)
    (hcolumn : p.column + 1 < Word.limit) (b : UInt8) : advance p b = .ok (p.advance b) := by
  unfold advance
  rw [Position.advanceWord_eq_ok hline hcolumn]
  rfl

/-! ## 2. One byte -/

/-- What a pass knows before a byte. -/
structure Reader where
  index : Nat
  lexer : Lexer
  position : Position
  deriving DecidableEq, Repr

namespace Reader

def initial : Reader := ⟨0, .initial, .start⟩

/-- The cell of the byte `b`, which stands at the index, and the reader after it. -/
def read (g : Grammar) (text : List UInt8) (r : Reader) (b : UInt8) :
    Except Fault (Cell × Reader) := do
  let (kind, lexer) ← r.lexer.classify g text r.index
  let position ← advance r.position b
  let index ← add r.index 1
  return (⟨b, r.position, kind⟩, ⟨index, lexer, position⟩)

/-- The reader stands before the byte at `i`. -/
structure At (g : Grammar) (text : List UInt8) (i : Nat) (r : Reader) : Prop where
  index : r.index = i
  lexer : r.lexer.Mirrors g text i (Nesting.Lexer.run g (text.take i))
  position : r.position = placeAt text i

variable {g : Grammar} {text : List UInt8} {i : Nat} {r : Reader} {x : Cell}

theorem at_initial (g : Grammar) (text : List UInt8) : At g text 0 initial where
  index := rfl
  lexer := Lexer.mirrors_initial g text
  position := rfl

theorem At.read (h : At g text i r) (htext : text.length + 1 < Word.limit)
    (hx : (cells g text)[i]? = some x) :
    ∃ r', r.read g text x.byte = .ok (x, r') ∧ At g text (i + 1) r' := by
  obtain ⟨hbyte, hplace⟩ := byte_position_of_getElem?_cells hx
  obtain ⟨hi, hget⟩ := List.getElem?_eq_some_iff.mp hbyte
  have hbound := placeAt_le (Nat.le_of_lt hi)
  obtain ⟨lexer, hclassify, hmirrors⟩ := h.lexer.classify hbyte (by omega)
  have hadvance : advance r.position x.byte = .ok (r.position.advance x.byte) := by
    rw [h.position]
    exact advance_eq_ok (by omega) (by omega) _
  have hkind : (Nesting.Lexer.run g (text.take i)).classify g x.byte = x.kind := by
    rw [getElem?_cells, hbyte] at hx
    exact congrArg Cell.kind (Option.some.inj hx)
  refine ⟨⟨i + 1, lexer, r.position.advance x.byte⟩, ?_, rfl, ?_, ?_⟩
  · unfold Reader.read
    rw [h.index, hclassify, hadvance, add_eq_ok (by omega), hkind, h.position, ← hplace]
    rfl
  · rw [List.take_succ_eq_append_getElem hi, hget, Nesting.Lexer.run_append]
    exact hmirrors
  · show r.position.advance x.byte = _
    rw [placeAt_succ hi, hget, h.position]

end Reader

/-! ## 3. A whole pass -/

section

variable {σ τ : Type} {g : Grammar} {text : List UInt8} {room : Collection → Nat → Bool} {i : Nat}

theorem exists_cell_of_drop (g : Grammar) {b : UInt8} {rest : List UInt8}
    (h : text.drop i = b :: rest) : ∃ x, (cells g text)[i]? = some x ∧ x.byte = b ∧
      (cells g text).drop i = x :: (cells g text).drop (i + 1) := by
  have hhead := congrArg (·[0]?) h
  simp only [List.getElem?_drop, Nat.add_zero, List.getElem?_cons_zero] at hhead
  obtain ⟨hi, -⟩ := List.getElem?_eq_some_iff.mp hhead
  obtain ⟨x, hx⟩ := exists_getElem?_cells g hi
  have hbyte := (byte_position_of_getElem?_cells hx).1
  obtain ⟨hlen, hget⟩ := List.getElem?_eq_some_iff.mp hx
  refine ⟨x, hx, Option.some.inj (hbyte.symm.trans hhead), ?_⟩
  rw [List.drop_eq_getElem_cons hlen, hget]

/-- One byte of a pass: its cell goes to `step`, with its index. -/
def passStep (g : Grammar) (text : List UInt8) (step : σ → Nat → Cell → Except Fault σ)
    (state : Reader × σ) (b : UInt8) : Except Fault (Reader × σ) := do
  let (x, r) ← state.1.read g text b
  let s ← step state.2 state.1.index x
  return (r, s)

/-- Reads a text byte by byte. -/
def pass (g : Grammar) (text : List UInt8) (step : σ → Nat → Cell → Except Fault σ) (s : σ) :
    Except Fault σ := do
  let (_, s) ← text.foldlM (passStep g text step) (Reader.initial, s)
  return s

variable {holds : Nat → σ → τ → Prop} {step : σ → Nat → Cell → Except Fault σ} {f : τ → Cell → τ}
  {s : σ} {t : τ}

theorem passStep_yields {r : Reader} {x : Cell} (htext : text.length + 1 < Word.limit)
    (hstep : Yields room (step s i x) (holds (i + 1) · (f t x))) (hat : r.At g text i)
    (hx : (cells g text)[i]? = some x) : Yields room (passStep g text step (r, s) x.byte)
      (fun out => out.1.At g text (i + 1) ∧ holds (i + 1) out.2 (f t x)) := by
  obtain ⟨r', hread, hat'⟩ := hat.read htext hx
  show Yields room (r.read g text x.byte >>= _) _
  rw [hread, ok_bind]
  show Yields room (step s r.index x >>= _) _
  rw [hat.index]
  exact hstep.bind fun s' hs' => yields_ok ⟨hat', hs'⟩

-- Induction on the bytes that are left.
theorem foldlM_passStep_yields (htext : text.length + 1 < Word.limit)
    (hstep : ∀ i x s t, (cells g text)[i]? = some x → holds i s t →
      Yields room (step s i x) (holds (i + 1) · (f t x)))
    {rest : List UInt8} {r : Reader} (hrest : text.drop i = rest) (hi : i ≤ text.length)
    (hat : r.At g text i) (hst : holds i s t) :
    Yields room (rest.foldlM (passStep g text step) (r, s))
      (fun out => holds text.length out.2 (((cells g text).drop i).foldl f t)) := by
  induction rest generalizing i r s t with
  | nil =>
    have hend : i = text.length := by
      have hle := List.drop_eq_nil_iff.mp hrest
      omega
    subst hend
    rw [List.drop_eq_nil_of_le (Nat.le_of_eq (length_cells g text))]
    exact yields_ok hst
  | cons b rest ih =>
    obtain ⟨x, hx, rfl, hcells⟩ := exists_cell_of_drop g hrest
    have hlt : i < text.length := by
      have hlen := congrArg List.length hrest
      rw [List.length_drop, List.length_cons] at hlen
      omega
    have hrest' : text.drop (i + 1) = rest := by
      rw [← List.drop_drop, hrest, List.drop_one, List.tail_cons]
    rw [List.foldlM_cons, hcells, List.foldl_cons]
    exact (passStep_yields htext (hstep i x s t hx hst) hat hx).bind
      fun out hout => ih hrest' hlt hout.1 hout.2

/-- **Passes.** What holds between the state of a pass and that of a fold over the cells before a
cell, and holds again after it, holds at the end. -/
theorem pass_yields (holds : Nat → σ → τ → Prop) (f : τ → Cell → τ)
    (htext : text.length + 1 < Word.limit) (hstart : holds 0 s t)
    (hstep : ∀ i x s t, (cells g text)[i]? = some x → holds i s t →
      Yields room (step s i x) (holds (i + 1) · (f t x))) :
    Yields room (pass g text step s) (holds text.length · ((cells g text).foldl f t)) :=
  (foldlM_passStep_yields htext hstep rfl (Nat.zero_le _) (Reader.at_initial g text) hstart).bind
    fun _ hout => yields_ok hout

end

end Nesting.Checked
