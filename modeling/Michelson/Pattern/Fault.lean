import Michelson.Pattern.Tree

/-!
# Faults of patterns

Why a pattern is refused, and how it is told: the pattern is shown again with
carets under the parts that are at fault, and the cause stands below it. A
pattern of several lines is framed and its lines are numbered.
-/

namespace Michelson.Pattern

/-- What is wrong with a pattern. -/
inductive Fault where
  | classEscape
  /-- a range ends before it begins -/
  | classRange
  /-- a range has an end that is no single character -/
  | classRangeEnd
  | classUnclosed
  | hexEmpty
  /-- a hexadecimal escape denotes no character -/
  | hexNoCharacter
  | hexDigit
  | escapeUnfinished
  | escapeUnknown
  | flagsEndInNegation
  | flagTwice (first : Span)
  | negationTwice (first : Span)
  | flagsUnfinished
  | flagUnknown
  | nameTwice (first : Span)
  | nameEmpty
  | nameCharacter
  | nameUnclosed
  | groupUnclosed
  | groupUnopened
  | tooDeep (limit : Nat)
  | countRange
  | countEmpty
  | countTooLarge
  | countUnclosed
  | repeatsNothing
  | wordEdgeUnclosed
  | wordEdgeUnknown
  | wordEdgeUnfinished
  | propertyMalformed
  | backreference
  | lookAround
  /-- a character beyond ASCII where bytes are matched -/
  | noCharactersHere
  /-- a part that matches bytes which are no text -/
  | noText
  | propertyUnknown
  | propertyValueUnknown
  | shorthandUnknown
  | caseUnknown
deriving DecidableEq, Repr

namespace Fault

/-- The wording of a fault. -/
def describe : Fault → String
  | classEscape => "invalid escape sequence found in character class"
  | classRange => "invalid character class range, the start must be <= the end"
  | classRangeEnd => "invalid range boundary, must be a literal"
  | classUnclosed => "unclosed character class"
  | hexEmpty => "hexadecimal literal empty"
  | hexNoCharacter => "hexadecimal literal is not a Unicode scalar value"
  | hexDigit => "invalid hexadecimal digit"
  | escapeUnfinished => "incomplete escape sequence, reached end of pattern prematurely"
  | escapeUnknown => "unrecognized escape sequence"
  | flagsEndInNegation => "dangling flag negation operator"
  | flagTwice _ => "duplicate flag"
  | negationTwice _ => "flag negation operator repeated"
  | flagsUnfinished => "expected flag but got end of regex"
  | flagUnknown => "unrecognized flag"
  | nameTwice _ => "duplicate capture group name"
  | nameEmpty => "empty capture group name"
  | nameCharacter => "invalid capture group character"
  | nameUnclosed => "unclosed capture group name"
  | groupUnclosed => "unclosed group"
  | groupUnopened => "unopened group"
  | tooDeep limit =>
    String.join ["exceed the maximum number of nested parentheses/brackets (",
      String.ofList (Numeral.decimal limit), ")"]
  | countRange => "invalid repetition count range, the start must be <= the end"
  | countEmpty => "repetition quantifier expects a valid decimal"
  | countTooLarge => "decimal literal invalid"
  | countUnclosed => "unclosed counted repetition"
  | repeatsNothing => "repetition operator missing expression"
  | wordEdgeUnclosed =>
    "special word boundary assertion is either unclosed or contains an invalid character"
  | wordEdgeUnknown =>
    String.join ["unrecognized special word boundary assertion, ",
      "valid choices are: start, end, start-half or end-half"]
  | wordEdgeUnfinished =>
    String.join ["found either the beginning of a special word boundary or a bounded repetition ",
      "on a \\b with an opening brace, but no closing brace"]
  | propertyMalformed => "invalid Unicode character class"
  | backreference => "backreferences are not supported"
  | lookAround => "look-around, including look-ahead and look-behind, is not supported"
  | noCharactersHere => "Unicode not allowed here"
  | noText => "pattern can match invalid UTF-8"
  | propertyUnknown => "Unicode property not found"
  | propertyValueUnknown => "Unicode property value not found"
  | shorthandUnknown =>
    String.join ["Unicode-aware Perl class not found ",
      "(make sure the unicode-perl feature is enabled)"]
  | caseUnknown =>
    String.join ["Unicode-aware case insensitivity matching is not available ",
      "(make sure the unicode-case feature is enabled)"]

/-- A second part of the pattern that a fault is about. -/
def other? : Fault → Option Span
  | flagTwice s => some s
  | negationTwice s => some s
  | nameTwice s => some s
  | _ => none

end Fault

/-- A fault and its place. -/
structure Refusal where
  span : Span
  fault : Fault
deriving DecidableEq, Repr

/-! ## Showing refusals -/

/-- The lines of a text. A line feed ends a line, together with a carriage
return before it; after the last line feed no line need follow. -/
def lines : List Char → List (List Char)
  | [] => []
  | '\n' :: cs => [] :: lines cs
  | '\r' :: '\n' :: cs => [] :: lines cs
  | c :: cs =>
    match lines cs with
    | [] => [[c]]
    | line :: rest => (c :: line) :: rest

/-- Carets under the columns of some spans in order, from a column on. A span
without characters gets one caret. -/
def carets (column : Nat) : List Span → List Char
  | [] => []
  | s :: rest =>
    let gap := s.start.column - column
    let width := max 1 (s.stop.column - s.start.column)
    List.replicate gap ' ' ++ (List.replicate width '^' ++ carets (column + gap + width) rest)

namespace Refusal

/-- The parts of the pattern that a refusal is about, in order. -/
def spans (r : Refusal) : List Span :=
  match r.fault.other? with
  | none => [r.span]
  | some s =>
    if s.precedes r.span then [s, r.span] else [r.span, s]

/-- The characters that line numbers take up. A pattern of one line has none. -/
def numberWidth (pattern : List Char) : Nat :=
  let count := (lines pattern).length + if pattern.getLast? = some '\n' then 1 else 0
  if count ≤ 1 then 0 else (Numeral.decimal count).length

/-- What stands before a line of the pattern. -/
def lineHead (width number : Nat) : List Char :=
  if width = 0 then List.replicate 4 ' '
  else
    let digits := Numeral.decimal number
    List.replicate (width - digits.length) ' ' ++ (digits ++ [':', ' '])

/-- The lines of a pattern from the one with the given number on, each with its
carets below. -/
def annotated (width : Nat) (spans : List Span) (number : Nat) : List (List Char) → List Char
  | [] => []
  | line :: rest =>
    let marks := match spans.filter fun s => s.start.line == number with
      | [] => []
      | here =>
        List.replicate (if width = 0 then 4 else width + 2) ' ' ++ (carets 1 here ++ ['\n'])
    lineHead width number ++ (line ++ '\n' :: (marks ++ annotated width spans (number + 1) rest))

/-- A note about a part that goes over several lines. -/
def extent (s : Span) : String :=
  String.join ["on line ", String.ofList (Numeral.decimal s.start.line), " (column ",
    String.ofList (Numeral.decimal s.start.column), ") through line ",
    String.ofList (Numeral.decimal s.stop.line), " (column ",
    String.ofList (Numeral.decimal (s.stop.column - 1)), ")\n"]

/-- The message about the refusal of a pattern. -/
def message (r : Refusal) (pattern : List Char) : String :=
  let (short, long) := r.spans.partition Span.isOnOneLine
  let shown := String.ofList (annotated (numberWidth pattern) short 1 (lines pattern))
  let frame := String.ofList (List.replicate 79 '~' ++ ['\n'])
  let body :=
    if '\n' ∈ pattern then String.join ([frame, shown, frame] ++ long.map extent) else shown
  String.join ["regex parse error:\n", body, "error: ", r.fault.describe]

end Refusal

end Michelson.Pattern
