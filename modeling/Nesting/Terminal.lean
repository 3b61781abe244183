/-!
# Terminal text

Text for a terminal holds control sequences that paint it. Where it does not go to a terminal the
sequences are taken out again, and so are sequences that came in with a quoted text.
-/

namespace Nesting.Terminal

/-! ## 1. Painting -/

/-- How a part of a report is painted. -/
inductive Style where
  | error
  | invalid
  | literal
  | valid
  deriving DecidableEq, Repr

/-- The sequence that begins a style. -/
def Style.opening : Style → String
  | .error => "\x1b[1m\x1b[31m"
  | .invalid => "\x1b[33m"
  | .literal => "\x1b[1m"
  | .valid => "\x1b[32m"

/-- Paints a text. -/
def Style.paint (style : Style) (text : String) : String :=
  style.opening ++ text ++ "\x1b[0m"

/-! ## 2. Control sequences -/

/-- How far a control sequence was read. -/
inductive Sequence where
  /-- No sequence: characters are text. -/
  | ground
  | escape
  /-- An escape with intermediate characters. -/
  | intermediate
  /-- A control function with its parameters. -/
  | control
  /-- A command to the operating system, which ends with a bell. -/
  | command
  /-- The start of a device control string. -/
  | device
  | deviceParameter
  | deviceIntermediate
  /-- The body of a control string. -/
  | body
  deriving DecidableEq, Repr

namespace Sequence

/-- The byte that ends a control string. -/
def terminator : UInt8 := 0x9c

/-- The control characters that part words and lines. -/
def isBreak (c : Char) : Bool :=
  c = '\t' || c = '\n' || c = '\x0c' || c = '\r'

/-- The sequence after a character from blank to tilde. -/
def afterGraphic (s : Sequence) (c : Char) : Sequence :=
  match s with
  | .ground => .ground
  | .escape =>
    if c.toNat < 0x30 then .intermediate
    else match c with
      | '[' => .control
      | ']' => .command
      | 'P' => .device
      | 'X' | '^' | '_' => .body
      | _ => .ground
  | .intermediate => if c.toNat < 0x30 then .intermediate else .ground
  | .control => if c.toNat < 0x40 then .control else .ground
  | .command => .command
  | .device =>
    if c.toNat < 0x30 then .deviceIntermediate
    else if c.toNat < 0x40 then .deviceParameter
    else .body
  | .deviceParameter =>
    if c.toNat < 0x30 then .deviceIntermediate
    else if c.toNat < 0x3c then .deviceParameter
    else .body
  | .deviceIntermediate => if c.toNat < 0x30 then .deviceIntermediate else .body
  | .body => .body

/-- The sequence after a character, and whether the character is shown. Cancel and substitute end
any sequence, and an escape begins another. A break is obeyed inside a short sequence. Of a
character beyond ASCII only the terminator byte counts. -/
def step (s : Sequence) (c : Char) : Sequence × Bool :=
  if c = '\x18' || c = '\x1a' then (.ground, false)
  else if c = '\x1b' then (.escape, false)
  else if c = '\x7f' then (s, false)
  else if c.toNat < 0x20 then
    match s with
    | .ground | .escape | .intermediate | .control => (s, isBreak c)
    | .command => (if c = '\x07' then .ground else .command, false)
    | s => (s, false)
  else if c.toNat < 0x80 then (s.afterGraphic c, s = .ground)
  else match s with
    | .ground => (.ground, true)
    | .body => (if terminator ∈ String.utf8EncodeChar c then .ground else .body, false)
    | s => (s, false)

/-- A character that controls nothing: a break, or one that is no control character of ASCII. -/
def IsText (c : Char) : Prop :=
  isBreak c = true ∨ (0x20 ≤ c.toNat ∧ c ≠ '\x7f')

/-- Outside all sequences text is shown and begins none. -/
theorem step_ground {c : Char} (h : IsText c) : step .ground c = (.ground, true) := by
  rcases h with hbreak | ⟨hlow, hdelete⟩
  · simp only [isBreak, Bool.or_eq_true, decide_eq_true_eq, or_assoc] at hbreak
    rcases hbreak with rfl | rfl | rfl | rfl <;> rfl
  · have hne : ∀ d : Char, d.toNat < 0x20 → c ≠ d := by
      rintro d hd rfl
      omega
    have hcancel : ¬ (c = '\x18' || c = '\x1a') = true := by
      simp [hne '\x18' (by decide), hne '\x1a' (by decide)]
    unfold step
    rw [if_neg hcancel, if_neg (hne '\x1b' (by decide)), if_neg hdelete, if_neg (by omega)]
    split <;> rfl

end Sequence

/-! ## 3. Plain text -/

/-- The state between two characters. -/
structure Filter where
  sequence : Sequence := .ground
  /-- The character before was shown. -/
  showing : Bool := false
  deriving DecidableEq, Repr

namespace Filter

/-- The state after a character. What is shown goes on to the next control character, also behind
a break inside an unfinished sequence; there the sequence is taken up again. -/
def feed (f : Filter) (c : Char) : Filter :=
  if f.showing && (Sequence.step .ground c).2 then
    -- A character beyond ASCII ends an unfinished sequence.
    { f with sequence := if c.toNat < 0x80 then f.sequence else .ground }
  else
    let (sequence, shown) := f.sequence.step c
    ⟨sequence, shown⟩

/-- The characters that are shown. -/
def shown (f : Filter) : List Char → List Char
  | [] => []
  | c :: rest =>
    let next := f.feed c
    if next.showing then c :: next.shown rest else next.shown rest

theorem feed_ground {f : Filter} (hf : f.sequence = .ground) {c : Char}
    (hc : Sequence.IsText c) : f.feed c = ⟨.ground, true⟩ := by
  obtain ⟨sequence, showing⟩ := f
  subst hf
  cases showing <;> simp [feed, Sequence.step_ground hc]

-- Text is shown whole and leaves the filter outside all sequences, whatever comes after it.
theorem shown_append {f : Filter} (hf : f.sequence = .ground) {cs : List Char}
    (h : ∀ c ∈ cs, Sequence.IsText c) (rest : List Char) :
    ∃ g : Filter, g.sequence = .ground ∧ f.shown (cs ++ rest) = cs ++ g.shown rest := by
  induction cs generalizing f with
  | nil => exact ⟨f, hf, rfl⟩
  | cons c cs ih =>
    have hcs : ∀ d ∈ cs, Sequence.IsText d := fun d hd => h d (List.mem_cons_of_mem c hd)
    obtain ⟨g, hg, hshown⟩ := ih (f := ⟨.ground, true⟩) rfl hcs
    refine ⟨g, hg, ?_⟩
    rw [List.cons_append, shown, feed_ground hf (h c List.mem_cons_self)]
    exact congrArg (c :: ·) hshown

end Filter

/-- The text without control sequences. -/
def plain (text : String) : String :=
  String.ofList (Filter.shown {} text.toList)

/-- Text without control characters is left as it is. -/
theorem plain_eq_self {text : String} (h : ∀ c ∈ text.toList, Sequence.IsText c) :
    plain text = text := by
  obtain ⟨g, -, hshown⟩ := Filter.shown_append (f := {}) rfl h []
  have hend : text.toList ++ g.shown [] = text.toList := List.append_nil _
  rw [List.append_nil, hend] at hshown
  unfold plain
  rw [hshown, String.ofList_toList]

/-- What was painted is text again, whatever the style. -/
theorem plain_paint (style : Style) {text : String} (h : ∀ c ∈ text.toList, Sequence.IsText c) :
    plain (style.paint text) = text := by
  have hopening : ∀ rest,
      Filter.shown {} (style.opening.toList ++ rest) = Filter.shown {} rest := by
    intro rest
    cases style <;> rfl
  have hreset : ∀ g : Filter, g.sequence = .ground → g.shown "\x1b[0m".toList = [] := by
    rintro ⟨sequence, showing⟩ rfl
    cases showing <;> rfl
  obtain ⟨g, hg, hshown⟩ := Filter.shown_append (f := {}) rfl h "\x1b[0m".toList
  unfold plain Style.paint
  rw [String.toList_append, String.toList_append, List.append_assoc, hopening, hshown, hreset g hg,
    List.append_nil, String.ofList_toList]

end Nesting.Terminal
