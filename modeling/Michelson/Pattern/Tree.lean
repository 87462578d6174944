import Michelson.Position

/-!
# Trees of patterns

A pattern describes texts. Its tree holds what is written, with the place of
every part, since an error tells where it was met. What a part means depends on
the flags in force and is settled later.
-/

namespace Michelson.Pattern

/-- A part of a pattern, from one place up to another. -/
structure Span where
  start : Position
  stop : Position
deriving DecidableEq, Repr

namespace Span

/-- The empty part at a place. -/
def point (p : Position) : Span := ⟨p, p⟩

/-- Whether the part begins before another, or at the same place and ends
before it. -/
def precedes (s t : Span) : Bool :=
  s.start.offset < t.start.offset ||
    (s.start.offset == t.start.offset && s.stop.offset < t.stop.offset)

/-- Whether the part lies on one line. -/
def isOnOneLine (s : Span) : Bool := s.start.line == s.stop.line

end Span

/-- What can be switched on and off in the midst of a pattern. -/
inductive Flag where
  /-- capital and small letters count as the same -/
  | ignoreCase
  /-- `^` and `$` match at every line -/
  | multiLine
  /-- the dot matches line feeds too -/
  | dotAll
  /-- repetitions prefer few readings, and many with a question mark -/
  | swapGreed
  /-- characters, not bytes, are matched -/
  | unicode
  /-- a carriage return may end a line -/
  | crlf
  /-- blanks and comments in the pattern mean nothing -/
  | ignoreBlanks
deriving DecidableEq, Repr

/-- An item in a list of flags. The flags after the negation are switched off. -/
inductive FlagItem where
  | negation
  | flag (flag : Flag)
deriving DecidableEq, Repr

/-- What a list of flags says about one of them. -/
def FlagItem.state? (flag : Flag) : List FlagItem → Option Bool
  | [] => none
  | .negation :: items => if .flag flag ∈ items then some false else none
  | .flag f :: items => if f = flag then some true else state? flag items

/-- A single character, as it is or escaped. -/
structure Literal where
  span : Span
  char : Char
  /-- whether it is written with two hexadecimal digits, as a byte is -/
  isByte : Bool
deriving DecidableEq, Repr

/-- Assertions about words. -/
inductive WordEdge where
  | boundary
  | noBoundary
  | start
  | stop
  /-- no word ends or goes on here -/
  | startHalf
  /-- no word begins or goes on here -/
  | stopHalf
deriving DecidableEq, Repr

/-- Assertions about a place in a text. -/
inductive Assertion where
  | lineStart
  | lineEnd
  | textStart
  | textEnd
  | word (edge : WordEdge)
deriving DecidableEq, Repr

/-- Classes of characters with an escape of one letter. -/
inductive Shorthand where
  | digit
  | space
  | word
deriving DecidableEq, Repr

/-- Classes of ASCII characters with a name. -/
inductive ClassName where
  | alnum
  | alpha
  | ascii
  | blank
  | cntrl
  | digit
  | graph
  | lower
  | print
  | punct
  | space
  | upper
  | word
  | xdigit
deriving DecidableEq, Repr

/-- A reference to a class by a property that characters have, and perhaps a
value of the property. -/
structure Property where
  name : List Char
  value? : Option (List Char)
deriving DecidableEq, Repr

/-- Operations on two classes. -/
inductive ClassOp where
  | intersection
  | difference
  | symmetricDifference
deriving DecidableEq, Repr

/-- What stands between the brackets of a class. -/
inductive ClassBody where
  | empty (span : Span)
  | literal (literal : Literal)
  | range (span : Span) (first last : Literal)
  | named (span : Span) (name : ClassName) (negated : Bool)
  | property (span : Span) (property : Property)
  | shorthand (span : Span) (shorthand : Shorthand) (negated : Bool)
  | brackets (span : Span) (negated : Bool) (body : ClassBody)
  | union (span : Span) (items : List ClassBody)
  | op (span : Span) (op : ClassOp) (left right : ClassBody)

/-- The part of the pattern that a class body takes up. -/
def ClassBody.span : ClassBody → Span
  | empty s => s
  | literal l => l.span
  | range s _ _ => s
  | named s _ _ => s
  | property s _ => s
  | shorthand s _ _ => s
  | brackets s _ _ => s
  | union s _ => s
  | op s _ _ _ => s

/-- The tree of a pattern. -/
inductive Tree where
  | empty (span : Span)
  | flags (span : Span) (items : List FlagItem)
  | literal (literal : Literal)
  | dot (span : Span)
  | assertion (span : Span) (assertion : Assertion)
  | shorthand (span : Span) (shorthand : Shorthand) (negated : Bool)
  | property (span : Span) (property : Property)
  | brackets (span : Span) (negated : Bool) (body : ClassBody)
  | repetition (span : Span) (least : Nat) (most : Option Nat) (sub : Tree)
  | group (span : Span) (flags : List FlagItem) (captures : Bool) (sub : Tree)
  | alternation (span : Span) (branches : List Tree)
  | concat (span : Span) (parts : List Tree)

/-- The part of the pattern that a tree takes up. -/
def Tree.span : Tree → Span
  | empty s => s
  | flags s _ => s
  | literal l => l.span
  | dot s => s
  | assertion s _ => s
  | shorthand s _ _ => s
  | property s _ => s
  | brackets s _ _ => s
  | repetition s _ _ _ => s
  | group s _ _ _ => s
  | alternation s _ => s
  | concat s _ => s

/-- The tree of some parts in a row. -/
def Tree.row (span : Span) : List Tree → Tree
  | [] => .empty span
  | [t] => t
  | ts => .concat span ts

/-! ## Depth -/

mutual

/-- The first part of a class body that is nested too deep, when so many more
levels may be opened. -/
def ClassBody.tooDeep? (levels : Nat) : ClassBody → Option Span
  | .brackets s _ body => match levels with
    | 0 => some s
    | n + 1 => body.tooDeep? n
  | .union s items => match levels with
    | 0 => some s
    | n + 1 => ClassBody.anyTooDeep? n items
  | .op s _ l r => match levels with
    | 0 => some s
    | n + 1 => (l.tooDeep? n).or (r.tooDeep? n)
  | _ => none

/-- The first part of some class bodies that is nested too deep. -/
def ClassBody.anyTooDeep? (levels : Nat) : List ClassBody → Option Span
  | [] => none
  | b :: bs => (b.tooDeep? levels).or (ClassBody.anyTooDeep? levels bs)

end

mutual

/-- The first part of a tree that is nested too deep, when so many more levels
may be opened. -/
def Tree.tooDeep? (levels : Nat) : Tree → Option Span
  | .brackets s _ body => match levels with
    | 0 => some s
    | n + 1 => body.tooDeep? n
  | .repetition s _ _ t => match levels with
    | 0 => some s
    | n + 1 => t.tooDeep? n
  | .group s _ _ t => match levels with
    | 0 => some s
    | n + 1 => t.tooDeep? n
  | .alternation s ts => match levels with
    | 0 => some s
    | n + 1 => Tree.anyTooDeep? n ts
  | .concat s ts => match levels with
    | 0 => some s
    | n + 1 => Tree.anyTooDeep? n ts
  | _ => none

/-- The first part of some trees that is nested too deep. -/
def Tree.anyTooDeep? (levels : Nat) : List Tree → Option Span
  | [] => none
  | t :: ts => (t.tooDeep? levels).or (Tree.anyTooDeep? levels ts)

end

end Michelson.Pattern
