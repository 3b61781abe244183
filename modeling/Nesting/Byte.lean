/-!
# Bytes of the text

A text is a list of bytes and need not be valid in any encoding. The bytes that the lexical rules
speak about have names here.
-/

namespace Nesting.Byte

abbrev newline : UInt8 := 0x0a
abbrev exclamation : UInt8 := 0x21
abbrev quote : UInt8 := 0x22
abbrev apostrophe : UInt8 := 0x27
abbrev star : UInt8 := 0x2a
abbrev dash : UInt8 := 0x2d
abbrev slash : UInt8 := 0x2f
abbrev semicolon : UInt8 := 0x3b
abbrev backslash : UInt8 := 0x5c
abbrev caret : UInt8 := 0x5e
abbrev lowerX : UInt8 := 0x78
abbrev leftBrace : UInt8 := 0x7b
abbrev bar : UInt8 := 0x7c

/-- An ASCII hexadecimal digit of either case. -/
def isHexDigit (b : UInt8) : Bool :=
  (0x30 ≤ b && b ≤ 0x39) || (0x41 ≤ b && b ≤ 0x46) || (0x61 ≤ b && b ≤ 0x66)

/-- The digits from `0` to `9` and the letters from `A` to `F` and from `a` to `f`. -/
theorem isHexDigit_iff {b : UInt8} : isHexDigit b = true ↔
    ('0'.toNat ≤ b.toNat ∧ b.toNat ≤ '9'.toNat) ∨ ('A'.toNat ≤ b.toNat ∧ b.toNat ≤ 'F'.toNat) ∨
      ('a'.toNat ≤ b.toNat ∧ b.toNat ≤ 'f'.toNat) := by
  unfold isHexDigit
  simp only [Bool.or_eq_true, Bool.and_eq_true, decide_eq_true_eq, UInt8.le_iff_toNat_le, or_assoc]
  rfl

/-- The character with the byte's number: ASCII, and Latin-1 above it. -/
def toChar (b : UInt8) : Char :=
  Char.ofNat b.toNat

/-- Every byte is the number of a character, and different bytes are different characters. -/
@[simp] theorem toNat_toChar (b : UInt8) : (toChar b).toNat = b.toNat := by
  have hb : b.toNat < 256 := b.toNat_lt
  have hv : b.toNat.isValidChar := Or.inl (by omega)
  have hc : toChar b = Char.ofNatAux b.toNat hv := dif_pos hv
  rw [hc]
  rfl

theorem toChar_injective {a b : UInt8} (h : toChar a = toChar b) : a = b := by
  have hn : (toChar a).toNat = (toChar b).toNat := congrArg Char.toNat h
  simp only [toNat_toChar] at hn
  exact UInt8.toNat_inj.mp hn

end Nesting.Byte
