import Michelson.Pattern.Fault
import Michelson.Text.Blank

/-!
# Reading patterns

The state over which a pattern is read, and the steps that the rules for its
parts are made of. Where blanks mean nothing, some steps pass them together with
comments, which go from `#` to the end of the line.
-/

namespace Michelson.Pattern

/-- How far a pattern is read. -/
structure ReadState where
  cursor : Cursor
  /-- whether blanks and comments mean nothing here -/
  ignoreBlanks : Bool := false
  /-- the names of groups met so far, each with its place -/
  names : List (List Char × Span) := []

/-- A step in reading a pattern, which may refuse it. -/
abbrev Reading := StateT ReadState (Except Refusal)

namespace Reading

/-- Refuses the pattern for a fault in some part of it. -/
def refuse {α : Type} (span : Span) (fault : Fault) : Reading α := throw ⟨span, fault⟩

/-- The text that is left. -/
def rest : Reading (List Char) := do
  let s ← get
  pure s.cursor.rest

/-- The place that is reached. -/
def position : Reading Position := do
  let s ← get
  pure s.cursor.position

/-- The character that follows. -/
def peek? : Reading (Option Char) := do
  let s ← get
  pure s.cursor.peek?

/-- The empty part at the place that is reached. -/
def here : Reading Span := do
  let p ← position
  pure (.point p)

/-- The part from a place up to the one that is reached. -/
def since (start : Position) : Reading Span := do
  let p ← position
  pure ⟨start, p⟩

/-- The part that the next character takes up. -/
def nextSpan : Reading Span := do
  let s ← get
  pure ⟨s.cursor.position, (s.cursor.skip 1).position⟩

/-- Passes some characters. -/
def advance (count : Nat) : Reading Unit :=
  modify fun s => { s with cursor := s.cursor.skip count }

/-- The length of the blanks and comments at the front of a text; with `true`,
after the beginning of a comment. -/
def blankLength : Bool → List Char → Nat
  | _, [] => 0
  | true, c :: cs => blankLength (c != '\n') cs + 1
  | false, c :: cs =>
    if isBlank c then blankLength false cs + 1
    else if c = '#' then blankLength true cs + 1
    else 0

/-- Passes blanks and comments, where they mean nothing. -/
def skipBlanks : Reading Unit := do
  let s ← get
  if s.ignoreBlanks then advance (blankLength false s.cursor.rest) else pure ()

/-- Passes a character, and the blanks after it where they mean nothing. The
answer is the character after them. -/
def step : Reading (Option Char) := do
  advance 1
  skipBlanks
  peek?

/-- The first character of a text that is no blank, where the beginnings of
comments are passed too. -/
def firstInk? : Bool → List Char → Option Char
  | _, [] => none
  | inComment, c :: cs =>
    if isBlank c then firstInk? inComment cs
    else if !inComment && c == '#' then firstInk? true cs
    else some c

/-- The character after the next one, past the blanks where they mean nothing. -/
def peekBeyond? : Reading (Option Char) := do
  let s ← get
  let cs := s.cursor.rest.drop 1
  if s.ignoreBlanks then pure ((firstInk? false cs).or cs.head?) else pure cs.head?

/-- Gathers the characters of some kind that follow, up to a bound on their
number. -/
def gather (kind : Char → Bool) : Nat → Reading (List Char)
  | 0 => pure []
  | bound + 1 => do
    match ← peek? with
    | none => pure []
    | some c =>
      if kind c then do
        let _ ← step
        let cs ← gather kind bound
        pure (c :: cs)
      else pure []

/-- Gathers all characters of some kind that follow. -/
def gatherAll (kind : Char → Bool) : Reading (List Char) := do
  let cs ← rest
  gather kind cs.length

end Reading

end Michelson.Pattern
