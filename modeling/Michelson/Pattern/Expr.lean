import Michelson.Pattern.Tree
import Michelson.Text.Ranges

/-!
# Expressions

What a pattern means: an expression over sets of characters and assertions about
places. A text is searched from left to right with *remainders*: lists of
expressions that are still to be matched in a row. Passing a character turns a
remainder into those that are left after it; a remainder that may end at a place
is a match.

* `Expr.mayBeEmpty` says whether an expression matches the empty text at a place;
* `Expr.after` gives the remainders of an expression after a character;
* `Expr.occursIn` says whether some part of a text matches.
-/

namespace Michelson.Pattern

/-- What surrounds a place in a text: the characters on both sides. -/
structure Place where
  before : Option Char
  after : Option Char
deriving DecidableEq, Repr

/-- An assertion about a place. -/
inductive Look where
  | start
  | stop
  | lineStart
  | lineEnd
  /-- a line may end in a carriage return as well -/
  | crlfLineStart
  | crlfLineEnd
  /-- an assertion about words of ASCII -/
  | word (edge : WordEdge)
  /-- an assertion about words of all scripts, which are not known here -/
  | anyWord
deriving DecidableEq, Repr

/-- Whether `c` is a character of a word of ASCII. -/
def isWordChar (c : Option Char) : Bool := c.any fun c => c.isAlphanum || c == '_'

/-- Whether an assertion about words holds at a place. -/
def WordEdge.holds (p : Place) : WordEdge → Bool
  | boundary => isWordChar p.before != isWordChar p.after
  | noBoundary => isWordChar p.before == isWordChar p.after
  | start => !isWordChar p.before && isWordChar p.after
  | stop => isWordChar p.before && !isWordChar p.after
  | startHalf => !isWordChar p.before
  | stopHalf => !isWordChar p.after

/-- Whether an assertion holds at a place. -/
def Look.holds (p : Place) : Look → Bool
  | start => p.before.isNone
  | stop => p.after.isNone
  | lineStart => p.before.all (· == '\n')
  | lineEnd => p.after.all (· == '\n')
  | crlfLineStart =>
    p.before.all (· == '\n') || (p.before == some '\r' && p.after != some '\n')
  | crlfLineEnd =>
    p.after.all (· == '\r') || (p.after == some '\n' && p.before != some '\r')
  | word e => e.holds p
  | anyWord => false

/-- An expression. -/
inductive Expr where
  | empty
  | chars (set : Ranges)
  | look (look : Look)
  | capture (sub : Expr)
  | seq (first second : Expr)
  | alt (left right : Expr)
  /-- from `least` up to `most` matches in a row; without `most`, any number -/
  | repetition (least : Nat) (most : Option Nat) (sub : Expr)
deriving DecidableEq, Repr

namespace Expr

/-! ## Building expressions -/

/-- The expression of some expressions in a row. -/
def row : List Expr → Expr
  | [] => empty
  | [e] => e
  | .empty :: es => row es
  | e :: es =>
    match row es with
    | .empty => e
    | rest => seq e rest

/-- The set of an expression that matches one character of a set. -/
def set? : Expr → Option Ranges
  | chars set => some set
  | _ => none

/-- Alternatives one after another. None of no alternatives matches. -/
def choice : List Expr → Expr
  | [] => chars []
  | [e] => e
  | e :: es => alt e (choice es)

/-- The expression of some alternatives. Those that are all single characters
make one set. -/
def anyOf (es : List Expr) : Expr :=
  match es.mapM set? with
  | some sets => chars (sets.foldr Ranges.union [])
  | none => choice es

/-- Whether an expression matches nothing but the empty text. -/
def isWidthless : Expr → Bool
  | empty => true
  | chars _ => false
  | look _ => true
  | capture e => e.isWidthless
  | seq a b => a.isWidthless && b.isWidthless
  | alt a b => a.isWidthless && b.isWidthless
  | repetition _ _ e => e.isWidthless

/-- The repetition of an expression. The empty text need not be matched twice in
a row. -/
def repeated (least : Nat) (most : Option Nat) (e : Expr) : Expr :=
  let (least, most) :=
    if e.isWidthless then (min least 1, some ((most.map (min 1)).getD 1)) else (least, most)
  if most = some 0 then empty
  else if least = 1 ∧ most = some 1 then e
  else repetition least most e

/-! ## Searching -/

/-- Whether an expression matches the empty text at a place. -/
def mayBeEmpty (p : Place) : Expr → Bool
  | empty => true
  | chars _ => false
  | look l => l.holds p
  | capture e => e.mayBeEmpty p
  | seq a b => a.mayBeEmpty p && b.mayBeEmpty p
  | alt a b => a.mayBeEmpty p || b.mayBeEmpty p
  | repetition least _ e => least == 0 || e.mayBeEmpty p

/-- What is left of an expression after the character `c`, which follows the
place: the remainders in any of which a match may go on. -/
def after (p : Place) (c : Char) : Expr → List (List Expr)
  | empty => []
  | chars set => if Ranges.contains set c.toNat then [[]] else []
  | look _ => []
  | capture e => e.after p c
  | seq a b =>
    (a.after p c).map (· ++ [b]) ++ if a.mayBeEmpty p then b.after p c else []
  | alt a b => a.after p c ++ b.after p c
  | repetition least most e =>
    if most = some 0 then []
    else
      -- where the expression may be empty, any part of the count may be used up at once
      let least' := if e.mayBeEmpty p then 0 else least - 1
      (e.after p c).map (· ++ [repetition least' (most.map (· - 1)) e])

/-- Whether a remainder may end at a place. -/
def mayEnd (p : Place) (es : List Expr) : Bool := es.all (mayBeEmpty p)

/-- What is left of a remainder after a character. -/
def allAfter (p : Place) (c : Char) : List Expr → List (List Expr)
  | [] => []
  | e :: es => (e.after p c).map (· ++ es) ++ if e.mayBeEmpty p then allAfter p c es else []

/-- Whether a match begins in a text, or goes on in it with one of the
remainders. `before` is the character before the text. -/
def occursFrom (e : Expr) (before : Option Char) (remainders : List (List Expr)) :
    List Char → Bool
  | [] => ([e] :: remainders).any (mayEnd ⟨before, none⟩)
  | c :: cs =>
    let p : Place := ⟨before, some c⟩
    let present := [e] :: remainders
    present.any (mayEnd p) ||
      occursFrom e (some c) (present.flatMap (allAfter p c)).eraseDups cs

/-- Whether an expression matches some part of a text. -/
def occursIn (e : Expr) (text : List Char) : Bool := e.occursFrom none [] text

end Expr

end Michelson.Pattern
