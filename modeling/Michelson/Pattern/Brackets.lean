import Michelson.Pattern.Escape

/-!
# Bracketed classes

Between brackets stand characters, ranges, classes with a name, escapes and
further brackets. `&&`, `--` and `~~` join what stands on their left, all of it,
with the items on their right.

A class is never empty as written: a closing bracket that comes first is an
item, and so are hyphens that come first.
-/

namespace Michelson.Pattern

namespace ClassName

/-- Every name of a class. -/
def all : List ClassName :=
  [alnum, alpha, ascii, blank, cntrl, digit, graph, lower, print, punct, space, upper, word, xdigit]

/-- How a name is written. -/
def text : ClassName → String
  | alnum => "alnum"
  | alpha => "alpha"
  | ascii => "ascii"
  | blank => "blank"
  | cntrl => "cntrl"
  | digit => "digit"
  | graph => "graph"
  | lower => "lower"
  | print => "print"
  | punct => "punct"
  | space => "space"
  | upper => "upper"
  | word => "word"
  | xdigit => "xdigit"

/-- The name that a text spells. -/
def ofText? (cs : List Char) : Option ClassName := all.find? fun n => n.text.toList == cs

/-- The class with a name at the front of a text, written `[:name:]`, with a
caret before the name to negate it; and the length of all that. -/
def scan? : List Char → Option (ClassName × Bool × Nat)
  | '[' :: ':' :: cs =>
    let negated := cs.head? == some '^'
    let cs := if negated then cs.drop 1 else cs
    let name := cs.takeWhile (· != ':')
    match ofText? name, cs.drop name.length with
    | some n, ':' :: ']' :: _ => some (n, negated, name.length + if negated then 5 else 4)
    | _, _ => none
  | _ => none

end ClassName

namespace ClassBody

/-- The body made of some items, which begin at `start` if there are none. -/
def ofItems (start : Position) : List ClassBody → ClassBody
  | [] => .empty (.point start)
  | [b] => b
  | b :: bs => .union ⟨b.span.start, ((bs.getLast?).getD b).span.stop⟩ (b :: bs)

/-- The operation at the front of a text. -/
def scanOp? : List Char → Option ClassOp
  | '&' :: '&' :: _ => some .intersection
  | '-' :: '-' :: _ => some .difference
  | '~' :: '~' :: _ => some .symmetricDifference
  | _ => none

/-- A body joined with the operand that waits on its left, if one does. -/
def joined (right : ClassBody) : Option (ClassBody × ClassOp) → ClassBody
  | none => right
  | some (left, o) => .op ⟨left.span.start, right.span.stop⟩ o left right

end ClassBody

namespace Reading

/-- The literal that an item is. -/
def literalOf : Item → Reading Literal
  | .literal l => pure l
  | i => refuse i.span .classRangeEnd

/-- What an item means in a class. -/
def classItem : Item → Reading ClassBody
  | .literal l => pure (.literal l)
  | .shorthand s h n => pure (.shorthand s h n)
  | .property s p => pure (.property s p)
  | i => refuse i.span .classEscape

/-- A single item of a class, which begins with `c`. -/
def classPoint (c : Char) : Reading Item :=
  if c = '\\' then escape
  else do
    let l ← verbatim c
    pure (.literal l)

/-- An item of a class, or a range of two; the brackets opened at `opening`. A
hyphen before the closing bracket or another hyphen makes no range. -/
def classRange (opening : Span) (c : Char) : Reading ClassBody := do
  let first ← classPoint c
  skipBlanks
  match ← peek? with
  | none => refuse opening .classUnclosed
  | some d => do
    let beyond ← peekBeyond?
    if d != '-' || beyond == some ']' || beyond == some '-' then classItem first
    else
      match ← step with
      | none => refuse opening .classUnclosed
      | some e => do
        let last ← classPoint e
        let a ← literalOf first
        let b ← literalOf last
        let span : Span := ⟨a.span.start, b.span.stop⟩
        if a.char ≤ b.char then pure (.range span a b) else refuse span .classRange

/-- The hyphens that come first in a class that opened at `start`, up to a bound
on their number. -/
def leadingHyphens (start : Position) : Nat → Reading (List ClassBody)
  | 0 => pure []
  | bound + 1 => do
    match ← peek? with
    | some '-' => do
      let span ← nextSpan
      match ← step with
      | none => refuse (.point start) .classUnclosed
      | some _ => do
        let more ← leadingHyphens start bound
        pure (.literal ⟨span, '-', false⟩ :: more)
    | _ => pure []

/-- The opening of a class: its bracket, whether it is negated, and the items
that count only because they come first. -/
def openBrackets : Reading (Span × Bool × List ClassBody) := do
  let start ← position
  match ← step with
  | none => refuse (← since start) .classUnclosed
  | some c => do
    let negated := c == '^'
    let first ← if negated then step else pure (some c)
    match first with
    | none => refuse (← since start) .classUnclosed
    | some d => do
      let hyphens ← leadingHyphens start (← rest).length
      if hyphens.isEmpty && d == ']' then do
        let span ← nextSpan
        match ← step with
        | none => refuse (← since start) .classUnclosed
        | some _ => pure (← since start, negated, [.literal ⟨span, ']', false⟩])
      else pure (← since start, negated, hyphens)

/-- What has been read of a class: the place where its items begin, the items,
the latest first, and the operand that waits on their left. -/
structure Gathered where
  start : Position
  items : List ClassBody
  waiting : Option (ClassBody × ClassOp)

/-- The body of what has been read of a class. -/
def Gathered.body (g : Gathered) : ClassBody :=
  (ClassBody.ofItems g.start g.items.reverse).joined g.waiting

/-- What has been read, and one more item. -/
def Gathered.push (g : Gathered) (b : ClassBody) : Gathered := { g with items := b :: g.items }

mutual

/-- The rest of a class up to its closing bracket. The bound is on the items,
those of classes inside counted in. -/
def classItems (opening : Span) : Nat → Gathered → Reading ClassBody
  | 0, _ => refuse opening .classUnclosed
  | bound + 1, g => do
    skipBlanks
    let cs ← rest
    match cs with
    | [] => refuse opening .classUnclosed
    | ']' :: _ => do
      advance 1
      pure g.body
    | '[' :: _ =>
      match ClassName.scan? cs with
      | some (name, negated, length) => do
        let start ← position
        advance length
        classItems opening bound (g.push (.named (← since start) name negated))
      | none => do
        let (span, negated, body) ← brackets bound
        classItems opening bound (g.push (.brackets span negated body))
    | c :: _ =>
      match ClassBody.scanOp? cs with
      | some o => do
        advance 2
        classItems opening bound ⟨← position, [], some (g.body, o)⟩
      | none => do
        let b ← classRange opening c
        classItems opening bound (g.push b)

/-- A class from its opening bracket on: the part that it takes up, whether it is
negated, and its body. -/
def brackets : Nat → Reading (Span × Bool × ClassBody)
  | 0 => do refuse (← here) .classUnclosed
  | bound + 1 => do
    let start ← position
    let (opening, negated, first) ← openBrackets
    let itemsStart := match first with
      | [] => opening.stop
      | b :: _ => b.span.start
    let body ← classItems opening bound ⟨itemsStart, first.reverse, none⟩
    pure (← since start, negated, body)

end

end Reading

end Michelson.Pattern
