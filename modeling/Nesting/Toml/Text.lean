/-!
# Texts of a settings file

Blank space, comments and the four ways of quoting a text. A parser takes characters from the
front of its input and returns what it read with the rest.
-/

namespace Nesting.Toml

/-- Reads a value from the front of the input, or refuses it. -/
abbrev Parser (α : Type) := List Char → Option (α × List Char)

/-! ## 1. Character classes -/

/-- Space and tab. -/
def isBlank (c : Char) : Bool := c = ' ' || c = '\t'

/-- What a comment or a quoted text on one line may hold: no control character but the tab. -/
def isPrintable (c : Char) : Bool :=
  c = '\t' || (0x20 ≤ c.toNat && c.toNat ≠ 0x7f)

/-- What a key may hold without quotes. -/
def isBare (c : Char) : Bool := c.isAlphanum || c = '_' || c = '-'

def isHex (c : Char) : Bool :=
  c.isDigit || ('a' ≤ c && c ≤ 'f') || ('A' ≤ c && c ≤ 'F')

/-- The number of a hexadecimal digit. -/
def hexValue (c : Char) : Nat :=
  if c.isDigit then c.toNat - '0'.toNat
  else if 'a' ≤ c then c.toNat - 'a'.toNat + 10
  else c.toNat - 'A'.toNat + 10

/-- The value of digits in a base up to sixteen. -/
def digitsValue (base : Nat) (digits : List Char) : Nat :=
  digits.foldl (fun n c => base * n + hexValue c) 0

/-! ## 2. Blank space and comments -/

def skipBlank (s : List Char) : List Char := s.dropWhile isBlank

/-- Skips a comment up to the end of its line. -/
def skipComment : List Char → List Char
  | '#' :: rest => rest.dropWhile isPrintable
  | s => s

/-- The rest after a line end, which is a newline with or without a carriage return before it. -/
def newline? : List Char → Option (List Char)
  | '\n' :: rest => some rest
  | '\r' :: '\n' :: rest => some rest
  | _ => none

/-- The rest of a line that holds nothing but blank space and a comment, after the line end if
there is one. -/
def endLine? (s : List Char) : Option (List Char) :=
  match skipComment (skipBlank s) with
  | [] => some []
  | rest => newline? rest

/-- Skips blank space, line ends and comments. -/
def skipTrivia (s : List Char) : List Char := go false s
where
  /-- The flag says whether a comment is being skipped. -/
  go : Bool → List Char → List Char
  | _, '\n' :: rest => go false rest
  | _, '\r' :: '\n' :: rest => go false rest
  | true, c :: rest => if isPrintable c then go true rest else c :: rest
  | false, '#' :: rest => go true rest
  | false, c :: rest => if isBlank c then go false rest else c :: rest
  | _, [] => []

/-! ## 3. Escapes -/

/-- The character that a backslash and a letter stand for. -/
def escaped? : Char → Option Char
  | 'b' => some '\x08'
  | 't' => some '\t'
  | 'n' => some '\n'
  | 'f' => some '\x0c'
  | 'r' => some '\r'
  | '"' => some '"'
  | '\\' => some '\\'
  | _ => none

/-- The character with a number in hexadecimal. Surrogates are no characters. -/
def unicode? (digits : List Char) : Option Char :=
  let n := digitsValue 16 digits
  if digits.all isHex ∧ n.isValidChar then some (Char.ofNat n) else none

/-- A text after its opening quote in which a backslash escapes. -/
def basicBody : Parser (List Char)
  | '"' :: rest => some ([], rest)
  | '\\' :: 'u' :: a :: b :: c :: d :: rest => do
    let x ← unicode? [a, b, c, d]
    let (body, rest) ← basicBody rest
    return (x :: body, rest)
  | '\\' :: 'U' :: a :: b :: c :: d :: e :: f :: g :: h :: rest => do
    let x ← unicode? [a, b, c, d, e, f, g, h]
    let (body, rest) ← basicBody rest
    return (x :: body, rest)
  | '\\' :: x :: rest => do
    let x ← escaped? x
    let (body, rest) ← basicBody rest
    return (x :: body, rest)
  | x :: rest =>
    if isPrintable x && x ≠ '\\' then do
      let (body, rest) ← basicBody rest
      return (x :: body, rest)
    else none
  | [] => none

/-- A text after its opening quote in which a backslash is a character as any other. -/
def literalBody : Parser (List Char)
  | '\'' :: rest => some ([], rest)
  | x :: rest =>
    if isPrintable x then do
      let (body, rest) ← literalBody rest
      return (x :: body, rest)
    else none
  | [] => none

/-! ## 4. Texts of several lines -/

/-- The first line end after the opening quotes is not part of the text. -/
def skipFirstNewline (s : List Char) : List Char := (newline? s).getD s

/-- Whether only blank space stands before the end of the line. -/
def isBlankLine (s : List Char) : Bool := (newline? (skipBlank s)).isSome

/-- Up to two quotes before the three closing ones belong to the text. -/
def closingQuotes? (quote : Char) : Parser (List Char)
  | a :: b :: c :: rest =>
    if a = quote ∧ b = quote ∧ c = quote then
      let extra := (rest.take 2).takeWhile (· = quote)
      some (extra, rest.drop extra.length)
    else none
  | _ => none

/-- A text of several lines after its opening quotes in which a backslash escapes. A backslash at
the end of a line drops the line end and all blank space after it; while that lasts, `folding` is
set. -/
def basicLines (folding : Bool) (s : List Char) : Option (List Char × List Char) :=
  match closingQuotes? '"' s with
  | some done => some done
  | none =>
    match s with
    | '\r' :: '\n' :: rest => keep (if folding then [] else ['\n']) (basicLines folding rest)
    | '\n' :: rest => keep (if folding then [] else ['\n']) (basicLines folding rest)
    | '\\' :: 'u' :: a :: b :: c :: d :: rest => do
      keep [← unicode? [a, b, c, d]] (basicLines false rest)
    | '\\' :: 'U' :: a :: b :: c :: d :: e :: f :: g :: h :: rest => do
      keep [← unicode? [a, b, c, d, e, f, g, h]] (basicLines false rest)
    | '\\' :: x :: rest =>
      -- The line end itself is still to be dropped.
      if isBlankLine (x :: rest) then basicLines true (x :: rest)
      else do keep [← escaped? x] (basicLines false rest)
    | x :: rest =>
      if folding && isBlank x then basicLines true rest
      else if isPrintable x && x ≠ '\\' then keep [x] (basicLines false rest)
      else none
    | [] => none
where
  /-- Puts characters before a text that was read. -/
  keep (front : List Char) (result : Option (List Char × List Char)) :
      Option (List Char × List Char) :=
    result.map fun (body, rest) => (front ++ body, rest)

/-- A text of several lines after its opening quotes in which a backslash is a character as any
other. -/
def literalLines (s : List Char) : Option (List Char × List Char) :=
  match closingQuotes? '\'' s with
  | some done => some done
  | none =>
    match s with
    | '\r' :: '\n' :: rest => (literalLines rest).map fun (body, rest) => ('\n' :: body, rest)
    | x :: rest =>
      if isPrintable x || x = '\n' then
        (literalLines rest).map fun (body, rest) => (x :: body, rest)
      else none
    | [] => none

/-! ## 5. Quoted texts -/

/-- A quoted text of one line, which may be a key. -/
def quotedLine? : Parser String
  | '"' :: rest => (basicBody rest).map fun (body, rest) => (String.ofList body, rest)
  | '\'' :: rest => (literalBody rest).map fun (body, rest) => (String.ofList body, rest)
  | _ => none

/-- A quoted text of one or several lines. -/
def quoted? : Parser String
  | '"' :: '"' :: '"' :: rest =>
    (basicLines false (skipFirstNewline rest)).map fun (body, rest) => (String.ofList body, rest)
  | '\'' :: '\'' :: '\'' :: rest =>
    (literalLines (skipFirstNewline rest)).map fun (body, rest) => (String.ofList body, rest)
  | s => quotedLine? s

end Nesting.Toml
