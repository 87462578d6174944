import Michelson.Pattern.Reading

/-!
# Single items of patterns

An item is a character, an escape, a dot or one of the two line assertions. The
same escapes are read inside and outside of brackets; which of them may stand
inside is decided there.
-/

namespace Michelson.Pattern

/-- A single item. -/
inductive Item where
  | literal (literal : Literal)
  | dot (span : Span)
  | assertion (span : Span) (assertion : Assertion)
  | shorthand (span : Span) (shorthand : Shorthand) (negated : Bool)
  | property (span : Span) (property : Property)

namespace Item

/-- The part of the pattern that an item takes up. -/
def span : Item → Span
  | literal l => l.span
  | dot s => s
  | assertion s _ => s
  | shorthand s _ _ => s
  | property s _ => s

/-- An item as a tree. -/
def tree : Item → Tree
  | literal l => .literal l
  | dot s => .dot s
  | assertion s a => .assertion s a
  | shorthand s h n => .shorthand s h n
  | property s p => .property s p

end Item

/-- The characters with a meaning of their own somewhere in a pattern. -/
def isMeta (c : Char) : Bool :=
  c ∈ ['\\', '.', '+', '*', '?', '(', ')', '|', '[', ']', '{', '}', '^', '$', '#', '&', '-', '~']

/-- Whether `c` may stand for itself after a backslash: any ASCII character but
letters, digits and angle brackets. -/
def isEscapable (c : Char) : Bool :=
  isMeta c || (c.toNat < 0x80 && !c.isAlphanum && c != '<' && c != '>')

/-- The character that a letter after a backslash denotes. -/
def controlEscape? : Char → Option Char
  | 'a' => some (Char.ofNat 0x07)
  | 'f' => some (Char.ofNat 0x0C)
  | 't' => some '\t'
  | 'n' => some '\n'
  | 'r' => some '\r'
  | 'v' => some (Char.ofNat 0x0B)
  | _ => none

/-- The assertion that a character after a backslash makes. -/
def assertionEscape? : Char → Option Assertion
  | 'A' => some .textStart
  | 'z' => some .textEnd
  | 'b' => some (.word .boundary)
  | 'B' => some (.word .noBoundary)
  | '<' => some (.word .start)
  | '>' => some (.word .stop)
  | _ => none

/-- The class that a letter after a backslash stands for, and whether it is
negated. -/
def shorthandEscape? : Char → Option (Shorthand × Bool)
  | 'd' => some (.digit, false)
  | 'D' => some (.digit, true)
  | 's' => some (.space, false)
  | 'S' => some (.space, true)
  | 'w' => some (.word, false)
  | 'W' => some (.word, true)
  | _ => none

/-- The number of digits of a hexadecimal escape without braces. -/
def hexDigitCount? : Char → Option Nat
  | 'x' => some 2
  | 'u' => some 4
  | 'U' => some 8
  | _ => none

/-- The assertion about words that a name in braces makes. -/
def wordEdge? (name : String) : Option WordEdge :=
  match name with
  | "start" => some .start
  | "end" => some .stop
  | "start-half" => some .startHalf
  | "end-half" => some .stopHalf
  | _ => none

namespace Reading

/-! ## Hexadecimal escapes -/

/-- The character that some hexadecimal digits denote. -/
def hexChar (digits : List Char) (span : Span) : Reading Char :=
  let code := Numeral.value 16 digits
  if code.isValidChar then pure (Char.ofNat code) else refuse span .hexNoCharacter

/-- So many hexadecimal digits. -/
def hexDigits : Nat → Reading (List Char)
  | 0 => pure []
  | count + 1 => do
    match ← peek? with
    | none => refuse (← here) .escapeUnfinished
    | some c =>
      if Numeral.isDigit 16 c then do
        let _ ← step
        let cs ← hexDigits count
        pure (c :: cs)
      else refuse (← nextSpan) .hexDigit

/-- Hexadecimal digits up to a closing brace, which is not passed, after an
opening brace at `brace`. The bound is on their number. -/
def bracedHexDigits (brace : Position) : Nat → Reading (List Char)
  | 0 => do refuse (← since brace) .escapeUnfinished
  | bound + 1 => do
    match ← peek? with
    | none => refuse (← since brace) .escapeUnfinished
    | some '}' => pure []
    | some c =>
      if Numeral.isDigit 16 c then do
        let _ ← step
        let cs ← bracedHexDigits brace bound
        pure (c :: cs)
      else refuse (← nextSpan) .hexDigit

/-- A hexadecimal escape from its letter on; the backslash is at `start`. -/
def hexEscape (start : Position) (digits : Nat) : Reading Literal := do
  match ← step with
  | none => refuse (← here) .escapeUnfinished
  | some '{' => do
    let brace ← position
    let inner := (← nextSpan).stop
    let _ ← step
    let cs ← bracedHexDigits brace (← rest).length
    let stop ← position
    let _ ← step
    if cs.isEmpty then refuse (← since brace) .hexEmpty
    else do
      let c ← hexChar cs ⟨inner, stop⟩
      pure ⟨← since start, c, false⟩
  | some _ => do
    let first ← position
    let cs ← hexDigits digits
    let c ← hexChar cs (← since first)
    pure ⟨← since start, c, digits == 2⟩

/-! ## Properties -/

/-- Splits a text at the first place where another one stands. -/
def splitAtFirst? (mark : List Char) : List Char → Option (List Char × List Char)
  | [] => none
  | c :: cs =>
    if mark.isPrefixOf (c :: cs) then some ([], (c :: cs).drop mark.length)
    else (splitAtFirst? mark cs).map fun (before, after) => (c :: before, after)

/-- The reference to a property that stands between braces: a name, or a name
and a value with `!=`, a colon or an equals sign between them. -/
def propertyOf (text : List Char) : Property :=
  match splitAtFirst? ['!', '='] text with
  | some (name, value) => ⟨name, some value⟩
  | none =>
    match splitAtFirst? [':'] text with
    | some (name, value) => ⟨name, some value⟩
    | none =>
      match splitAtFirst? ['='] text with
      | some (name, value) => ⟨name, some value⟩
      | none => ⟨text, none⟩

/-- A reference to a property, from its letter on. -/
def propertyEscape : Reading Property := do
  match ← step with
  | none => refuse (← here) .escapeUnfinished
  | some '{' => do
    let _ ← step
    let cs ← gatherAll (· != '}')
    match ← peek? with
    | none => refuse (← here) .escapeUnfinished
    | some _ => do
      advance 1
      pure (propertyOf cs)
  | some '\\' => refuse (← nextSpan) .propertyMalformed
  | some c => do
    let _ ← step
    pure ⟨[c], none⟩

/-! ## Assertions about words -/

/-- Whether `c` may stand in the name of an assertion about words. -/
def isWordEdgeChar (c : Char) : Bool := c.isAlpha || c == '-'

/-- The braces that may follow `\b` at `start`, with the name of an assertion.
Braces that begin with something else count a repetition and are left alone. -/
def wordEdgeName? (start : Position) : Reading (Option WordEdge) := do
  match ← peek? with
  | some '{' => do
    let before ← get
    match ← step with
    | none => refuse (← since start) .wordEdgeUnfinished
    | some c =>
      if isWordEdgeChar c then do
        let first ← position
        let cs ← gatherAll isWordEdgeChar
        let stop ← position
        match ← peek? with
        | some '}' => do
          advance 1
          match wordEdge? (String.ofList cs) with
          | some e => pure (some e)
          | none => refuse ⟨first, stop⟩ .wordEdgeUnknown
        | _ => refuse (← since before.cursor.position) .wordEdgeUnclosed
      else do
        set before
        pure none
  | _ => pure none

/-! ## Escapes -/

/-- An escape of one character, which is `c`; the backslash is at `start`. -/
def simpleEscape (start : Position) (c : Char) : Reading Item := do
  advance 1
  let span ← since start
  if isEscapable c then pure (.literal ⟨span, c, false⟩)
  else
    match controlEscape? c, assertionEscape? c with
    | some d, _ => pure (.literal ⟨span, d, false⟩)
    | none, some a =>
      if c = 'b' then do
        match ← wordEdgeName? start with
        | some e => pure (.assertion (← since start) (.word e))
        | none => pure (.assertion span a)
      else pure (.assertion span a)
    | none, none => refuse span .escapeUnknown

/-- An escape. -/
def escape : Reading Item := do
  let start ← position
  advance 1
  match ← peek? with
  | none => refuse (← since start) .escapeUnfinished
  | some c =>
    if c.isDigit then do
      let digit ← nextSpan
      refuse ⟨start, digit.stop⟩ .backreference
    else
      match hexDigitCount? c, shorthandEscape? c with
      | some digits, _ => do
        let l ← hexEscape start digits
        pure (.literal l)
      | none, some (h, negated) => do
        advance 1
        pure (.shorthand (← since start) h negated)
      | none, none =>
        if c = 'p' ∨ c = 'P' then do
          let p ← propertyEscape
          pure (.property (← since start) p)
        else simpleEscape start c

/-- A character as it is. -/
def verbatim (c : Char) : Reading Literal := do
  let span ← nextSpan
  advance 1
  pure ⟨span, c, false⟩

/-- A single item outside of brackets, which begins with `c`. -/
def item (c : Char) : Reading Item := do
  match c with
  | '\\' => escape
  | '.' => do
    let l ← verbatim c
    pure (.dot l.span)
  | '^' => do
    let l ← verbatim c
    pure (.assertion l.span .lineStart)
  | '$' => do
    let l ← verbatim c
    pure (.assertion l.span .lineEnd)
  | _ => do
    let l ← verbatim c
    pure (.literal l)

end Reading

end Michelson.Pattern
