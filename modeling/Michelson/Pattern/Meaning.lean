import Michelson.Pattern.Expr
import Michelson.Pattern.Fault

/-!
# What patterns mean

The parts of a tree are taken from left to right, since flags hold from their
place on up to the end of the group around them. Some parts are refused although
they are well formed:

* where characters are matched, the classes and the letter cases of all scripts
  would be needed for shorthands, properties and `ignoreCase`, and there are no
  tables of them;
* where bytes are matched, a part must not match what is no text.
-/

namespace Michelson.Pattern

/-- The flags that bear on what a part means. -/
structure Modes where
  ignoreCase : Bool := false
  multiLine : Bool := false
  dotAll : Bool := false
  unicode : Bool := true
  crlf : Bool := false
deriving DecidableEq, Repr

namespace Modes

/-- The flags after a list of them. -/
def set (m : Modes) (items : List FlagItem) : Modes where
  ignoreCase := (FlagItem.state? .ignoreCase items).getD m.ignoreCase
  multiLine := (FlagItem.state? .multiLine items).getD m.multiLine
  dotAll := (FlagItem.state? .dotAll items).getD m.dotAll
  unicode := (FlagItem.state? .unicode items).getD m.unicode
  crlf := (FlagItem.state? .crlf items).getD m.crlf

/-- The last of the codes that are matched: those of characters or bytes. -/
def top (m : Modes) : Nat := if m.unicode then 0x10FFFF else 0xFF

end Modes

/-! ## Sets -/

/-- The last code of ASCII. -/
def lastAscii : Nat := 0x7F

/-- The characters of a class with a name. -/
def ClassName.ranges : ClassName → Ranges
  | alnum => [(0x30, 0x39), (0x41, 0x5A), (0x61, 0x7A)]
  | alpha => [(0x41, 0x5A), (0x61, 0x7A)]
  | ascii => [(0, lastAscii)]
  | blank => [(0x09, 0x09), (0x20, 0x20)]
  | cntrl => [(0, 0x1F), (0x7F, 0x7F)]
  | digit => [(0x30, 0x39)]
  | graph => [(0x21, 0x7E)]
  | lower => [(0x61, 0x7A)]
  | print => [(0x20, 0x7E)]
  | punct => [(0x21, 0x2F), (0x3A, 0x40), (0x5B, 0x60), (0x7B, 0x7E)]
  | space => [(0x09, 0x0D), (0x20, 0x20)]
  | upper => [(0x41, 0x5A)]
  | word => [(0x30, 0x39), (0x41, 0x5A), (0x5F, 0x5F), (0x61, 0x7A)]
  | xdigit => [(0x30, 0x39), (0x41, 0x46), (0x61, 0x66)]

/-- The characters of ASCII in a class with an escape of one letter. -/
def Shorthand.ranges : Shorthand → Ranges
  | digit => ClassName.digit.ranges
  | space => ClassName.space.ranges
  | word => ClassName.word.ranges

/-- A set together with the other case of its letters of ASCII. -/
def bothCases (a : Ranges) : Ranges :=
  let capitals := Ranges.inter lastAscii a ClassName.upper.ranges
  let smalls := Ranges.inter lastAscii a ClassName.lower.ranges
  Ranges.union (capitals.map fun (first, last) => (first + 0x20, last + 0x20))
    (Ranges.union (smalls.map fun (first, last) => (first - 0x20, last - 0x20)) a)

/-- What a class body stands for. -/
structure ClassSet where
  ranges : Ranges
  /-- whether no letter lacks its other case -/
  isFolded : Bool
deriving DecidableEq, Repr

namespace ClassSet

/-- Without any character. -/
def empty : ClassSet := ⟨[], true⟩

/-- The characters of a range. -/
def range (first last : Nat) : ClassSet := ⟨[(first, last)], false⟩

/-- The characters in one set or the other. -/
def union (a b : ClassSet) : ClassSet := ⟨Ranges.union a.ranges b.ranges, a.isFolded && b.isFolded⟩

/-- An operation on two sets of codes up to `top`. -/
def combine (top : Nat) (o : ClassOp) (a b : ClassSet) : ClassSet :=
  let ranges := match o with
    | .intersection => Ranges.inter top a.ranges b.ranges
    | .difference => Ranges.diff top a.ranges b.ranges
    | .symmetricDifference =>
      Ranges.union (Ranges.diff top a.ranges b.ranges) (Ranges.diff top b.ranges a.ranges)
  ⟨ranges, a.isFolded && b.isFolded⟩

end ClassSet

namespace Modes

/-- A set with the other case of its letters, if cases count as the same. -/
def fold (m : Modes) (span : Span) (a : ClassSet) : Except Refusal ClassSet :=
  if !m.ignoreCase || a.isFolded then .ok a
  else if m.unicode then .error ⟨span, .caseUnknown⟩
  else .ok ⟨bothCases a.ranges, true⟩

/-- A set or its complement, if that is made of text. -/
def negated (m : Modes) (span : Span) (negated : Bool) (a : ClassSet) : Except Refusal ClassSet :=
  let ranges := if negated then Ranges.complement m.top a.ranges else a.ranges
  if m.unicode || ranges.isWithin lastAscii then .ok ⟨ranges, a.isFolded⟩
  else .error ⟨span, .noText⟩

/-- The set of a class that has the items in `a`. -/
def settled (m : Modes) (span : Span) (negated : Bool) (a : ClassSet) :
    Except Refusal ClassSet := do
  let b ← m.fold span a
  m.negated span negated b

/-- The set of a class with an escape of one letter. -/
def shorthand (m : Modes) (span : Span) (h : Shorthand) (negated : Bool) :
    Except Refusal ClassSet :=
  if m.unicode then .error ⟨span, .shorthandUnknown⟩ else m.negated span negated ⟨h.ranges, true⟩

/-- The code of a single character of a class. -/
def code (m : Modes) (l : Literal) : Except Refusal Nat :=
  let n := l.char.toNat
  if m.unicode || n ≤ lastAscii then .ok n
  else .error ⟨l.span, if l.isByte then .noText else .noCharactersHere⟩

end Modes

/-- The name of a property, brought to the form in which names are compared. -/
def plainName (name : List Char) : List Char :=
  let kept := match name with
    | i :: s :: rest => if i.toLower = 'i' ∧ s.toLower = 's' then rest else name
    | _ => name
  (kept.filter fun c => c.toNat ≤ lastAscii && c ∉ [' ', '_', '-']).map Char.toLower

/-- Names that a property without a value is not taken for, but a value. -/
def valueNames : List String := ["cf", "sc", "lc"]

/-- Why a reference to a property is refused. None is known. -/
def Property.fault (m : Modes) (p : Property) : Fault :=
  if !m.unicode then .noCharactersHere
  else if p.value?.isNone && String.ofList (plainName p.name) ∈ valueNames then
    .propertyValueUnknown
  else .propertyUnknown

mutual

/-- What a class body stands for. -/
def ClassBody.set (m : Modes) : ClassBody → Except Refusal ClassSet
  | .empty _ => .ok .empty
  | .literal l => do
    let c ← m.code l
    pure (.range c c)
  | .range _ first last => do
    let a ← m.code first
    let b ← m.code last
    pure (.range a b)
  | .named span name negated => m.settled span negated ⟨name.ranges, false⟩
  | .property span p => .error ⟨span, p.fault m⟩
  | .shorthand span h negated => m.shorthand span h negated
  | .brackets span negated body => do
    let a ← body.set m
    m.settled span negated a
  | .union _ items => ClassBody.unionSet m items
  | .op _ o left right => do
    let a ← left.set m
    let b ← right.set m
    let b ← m.fold right.span b
    let a ← m.fold left.span a
    pure (.combine m.top o a b)

/-- What some class bodies stand for together. -/
def ClassBody.unionSet (m : Modes) : List ClassBody → Except Refusal ClassSet
  | [] => .ok .empty
  | b :: bs => do
    let a ← b.set m
    let rest ← ClassBody.unionSet m bs
    pure (a.union rest)

end

/-! ## Expressions -/

namespace Modes

/-- The expression of a single character. -/
def literal (m : Modes) (l : Literal) : Except Refusal Expr :=
  let n := l.char.toNat
  if m.unicode then
    if m.ignoreCase then .error ⟨l.span, .caseUnknown⟩ else .ok (.chars [(n, n)])
  else if l.isByte && lastAscii < n then .error ⟨l.span, .noText⟩
  else .ok (.chars (if m.ignoreCase then bothCases [(n, n)] else [(n, n)]))

/-- The expression of a dot. -/
def dot (m : Modes) (span : Span) : Except Refusal Expr :=
  if !m.unicode then .error ⟨span, .noText⟩
  else
    let excluded : Ranges :=
      if m.dotAll then [] else if m.crlf then [(0x0A, 0x0A), (0x0D, 0x0D)] else [(0x0A, 0x0A)]
    .ok (.chars (Ranges.complement m.top excluded))

/-- What an assertion says. -/
def look (m : Modes) : Assertion → Look
  | .lineStart => if m.multiLine then (if m.crlf then .crlfLineStart else .lineStart) else .start
  | .lineEnd => if m.multiLine then (if m.crlf then .crlfLineEnd else .lineEnd) else .stop
  | .textStart => .start
  | .textEnd => .stop
  | .word e => if m.unicode then .anyWord else .word e

end Modes

mutual

/-- The expression of a tree, and the flags in force after it. -/
def Tree.expr (m : Modes) : Tree → Except Refusal (Expr × Modes)
  | .empty _ => .ok (.empty, m)
  | .flags _ items => .ok (.empty, m.set items)
  | .literal l => do
    let e ← m.literal l
    pure (e, m)
  | .dot span => do
    let e ← m.dot span
    pure (e, m)
  | .assertion _ a => .ok (.look (m.look a), m)
  | .shorthand span h negated => do
    let a ← m.shorthand span h negated
    pure (.chars a.ranges, m)
  | .property span p => .error ⟨span, p.fault m⟩
  | .brackets span negated body => do
    let a ← body.set m
    let b ← m.settled span negated a
    pure (.chars b.ranges, m)
  | .repetition _ least most t => do
    let (e, m') ← t.expr m
    pure (.repeated least most e, m')
  | .group _ items captures t => do
    let (e, _) ← t.expr (m.set items)
    pure (if captures then .capture e else e, m)
  | .alternation _ branches => do
    let (es, m') ← Tree.exprs m branches
    pure (.anyOf es, m')
  | .concat _ parts => do
    let (es, m') ← Tree.exprs m parts
    pure (.row es, m')

/-- The expressions of some trees in order, and the flags in force after them. -/
def Tree.exprs (m : Modes) : List Tree → Except Refusal (List Expr × Modes)
  | [] => .ok ([], m)
  | t :: ts => do
    let (e, m') ← t.expr m
    let (es, m'') ← Tree.exprs m' ts
    pure (e :: es, m'')

end

end Michelson.Pattern
