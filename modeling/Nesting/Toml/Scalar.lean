import Nesting.Toml.Text
import Nesting.Toml.Value

/-!
# Unquoted scalars

Truth values, numbers, dates and times. They share one alphabet, so a scalar is cut out of the
text first and read as a whole.
-/

namespace Nesting.Toml

/-- The characters of unquoted scalars. -/
def isScalarChar (c : Char) : Bool :=
  c.isAlphanum || c = '+' || c = '-' || c = '_' || c = '.' || c = ':'

/-! ## 1. Digits -/

/-- The digits of a run in which single underscores may stand between two digits. -/
def ungroup? (isDigit : Char → Bool) : List Char → Option (List Char)
  | [] => none
  | [c] => if isDigit c then some [c] else none
  | c :: '_' :: rest => if isDigit c then (ungroup? isDigit rest).map (c :: ·) else none
  | c :: rest => if isDigit c then (ungroup? isDigit rest).map (c :: ·) else none

/-- The sign in front of a number: whether it is negative, and the rest. -/
def splitSign : List Char → Bool × List Char
  | '-' :: rest => (true, rest)
  | '+' :: rest => (false, rest)
  | s => (false, s)

/-- The digits of a decimal whole number, which starts with zero only if it is zero. -/
def wholeDigits? (s : List Char) : Option (List Char) := do
  let digits ← ungroup? Char.isDigit s
  if s.length > 1 && s.head? = some '0' then none else some digits

/-! ## 2. Whole numbers -/

/-- Whole numbers are signed words. -/
def inRange (n : Int) : Bool := -(Int.pow 2 63) ≤ n && n < Int.pow 2 63

/-- A whole number in decimal with an optional sign, or in base sixteen, eight or two without
one. -/
def integer? (s : List Char) : Option Int := do
  let n ← match s with
    | '0' :: 'x' :: rest => (ungroup? isHex rest).map fun ds => Int.ofNat (digitsValue 16 ds)
    | '0' :: 'o' :: rest =>
      (ungroup? (fun c => '0' ≤ c && c ≤ '7') rest).map fun ds => Int.ofNat (digitsValue 8 ds)
    | '0' :: 'b' :: rest =>
      (ungroup? (fun c => c = '0' || c = '1') rest).map fun ds => Int.ofNat (digitsValue 2 ds)
    | s =>
      let (negative, rest) := splitSign s
      (wholeDigits? rest).map fun ds =>
        let n := Int.ofNat (digitsValue 10 ds)
        if negative then -n else n
  if inRange n then some n else none

/-! ## 3. Numbers with a fraction or an exponent -/

/-- The number `mantissa * 10 ^ exponent`, or its negative. -/
structure Decimal where
  negative : Bool
  mantissa : Nat
  exponent : Int
  deriving DecidableEq, Repr

/-- The least number that rounds beyond the largest double. -/
def doubleLimit : Nat := Nat.pow 2 1024 - Nat.pow 2 970

/-- Whether a number without its sign rounds beyond the largest double. How many digits it has
before the point settles all but the numbers with 309 of them. -/
def Decimal.exceedsDouble (d : Decimal) : Bool :=
  let size := (Nat.toDigits 10 d.mantissa).length + d.exponent
  if d.mantissa = 0 then false
  else if size > 309 then true
  else if size < 309 then false
  else if 0 ≤ d.exponent then doubleLimit ≤ d.mantissa * Nat.pow 10 d.exponent.toNat
  else doubleLimit * Nat.pow 10 (-d.exponent).toNat ≤ d.mantissa

/-- What stands before the first character of a kind, and what stands after it if there is one. -/
def splitAtFirst (isMark : Char → Bool) (s : List Char) : List Char × Option (List Char) :=
  (s.takeWhile (fun c => !isMark c), (s.dropWhile (fun c => !isMark c)).tail?)

/-- The exponent of a number after its mark. -/
def exponent? (s : List Char) : Option Int := do
  let (negative, digits) := splitSign s
  let digits ← ungroup? Char.isDigit digits
  let n := Int.ofNat (digitsValue 10 digits)
  return if negative then -n else n

/-- A number with a fraction, an exponent or both. -/
def decimal? (s : List Char) : Option Decimal := do
  let (negative, unsigned) := splitSign s
  let (front, power) := splitAtFirst (fun c => c = 'e' || c = 'E') unsigned
  let (whole, fraction) := splitAtFirst (fun c => c = '.') front
  guard (fraction.isSome || power.isSome)
  let whole ← wholeDigits? whole
  let fraction ← fraction.elim (some []) (ungroup? Char.isDigit)
  let exponent ← power.elim (some 0) exponent?
  return ⟨negative, digitsValue 10 (whole ++ fraction), exponent - fraction.length⟩

/-- A number that is not whole, infinite ones and those that are none included. A positive number
must not be too large for a double, and a negative one may. -/
def isFloat (s : List Char) : Bool :=
  let unsigned := (splitSign s).2
  unsigned = ['i', 'n', 'f'] || unsigned = ['n', 'a', 'n'] ||
    match decimal? s with
    | some d => d.negative || !d.exceedsDouble
    | none => false

/-! ## 4. Dates and times -/

/-- A number of exactly two digits from `low` to `high`. -/
def twoDigits? (low high : Nat) (a b : Char) : Option Nat :=
  let n := digitsValue 10 [a, b]
  if a.isDigit && b.isDigit && low ≤ n && n ≤ high then some n else none

/-- How many days a month has. -/
def daysIn (year month : Nat) : Nat :=
  if month = 2 then
    if year % 4 = 0 && (year % 100 ≠ 0 || year % 400 = 0) then 29 else 28
  else if month = 4 || month = 6 || month = 9 || month = 11 then 30
  else 31

/-- The rest after a day of the calendar. -/
def date? : List Char → Option (List Char)
  | y₁ :: y₂ :: y₃ :: y₄ :: '-' :: m₁ :: m₂ :: '-' :: d₁ :: d₂ :: rest => do
    if [y₁, y₂, y₃, y₄].all Char.isDigit then
      let month ← twoDigits? 1 12 m₁ m₂
      let _ ← twoDigits? 1 (daysIn (digitsValue 10 [y₁, y₂, y₃, y₄]) month) d₁ d₂
      return rest
    else none
  | _ => none

/-- The rest after a time of day with optional fractions of a second. A leap second is allowed. -/
def time? : List Char → Option (List Char)
  | h₁ :: h₂ :: ':' :: m₁ :: m₂ :: ':' :: s₁ :: s₂ :: rest => do
    let _ ← twoDigits? 0 23 h₁ h₂
    let _ ← twoDigits? 0 59 m₁ m₂
    let _ ← twoDigits? 0 60 s₁ s₂
    match rest with
    | '.' :: c :: rest => if c.isDigit then some (rest.dropWhile Char.isDigit) else none
    | rest => some rest
  | _ => none

/-- An offset from universal time, or none. -/
def isOffset : List Char → Bool
  | [] => true
  | [z] => z = 'Z' || z = 'z'
  | [sign, h₁, h₂, ':', m₁, m₂] =>
    (sign = '+' || sign = '-') && (twoDigits? 0 23 h₁ h₂).isSome &&
      (twoDigits? 0 59 m₁ m₂).isSome
  | _ => false

/-- A time of day with an optional offset. -/
def isClock (s : List Char) : Bool :=
  match time? s with
  | some rest => isOffset rest
  | none => false

/-- A day, a day with a time, or a time without an offset. -/
def isDatetime (s : List Char) : Bool :=
  match date? s with
  | some [] => true
  | some (mark :: clock) => (mark = 'T' || mark = 't' || mark = ' ') && isClock clock
  | none => time? s = some []

/-! ## 5. Scalars -/

/-- The value of a whole unquoted scalar. -/
def scalarValue? (s : List Char) : Option Value :=
  if s = ['t', 'r', 'u', 'e'] then some (.boolean true)
  else if s = ['f', 'a', 'l', 's', 'e'] then some (.boolean false)
  else if isDatetime s then some (.datetime (String.ofList s))
  else if isFloat s then some (.float (String.ofList s))
  else (integer? s).map .integer

/-- Cuts a scalar out of the text. A day may be followed by a blank and a time. -/
def cutScalar (s : List Char) : List Char × List Char :=
  let token := s.takeWhile isScalarChar
  let rest := s.dropWhile isScalarChar
  match date? token, rest with
  | some [], ' ' :: c :: more =>
    if c.isDigit then
      (token ++ ' ' :: (c :: more).takeWhile isScalarChar, (c :: more).dropWhile isScalarChar)
    else (token, rest)
  | _, _ => (token, rest)

/-- Reads an unquoted scalar. -/
def scalar? : Parser Value := fun s =>
  let (token, rest) := cutScalar s
  (scalarValue? token).map fun value => (value, rest)

end Nesting.Toml
