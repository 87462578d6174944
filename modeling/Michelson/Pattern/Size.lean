import Michelson.Pattern.Meaning
import Michelson.Text.ByteRow

/-!
# Sizes of expressions

An expression stands for a machine that reads bytes, forwards to find the end of
a match and backwards to find its beginning. A state of the machine takes up a
fixed number of bytes, besides its transitions and branches. Counted repetitions
repeat the states, so that a short pattern may stand for a machine beyond all
bounds: the size is counted without building the machine.
-/

namespace Michelson.Pattern

/-- Which way a machine goes through a text. -/
inductive Direction where
  | forward
  | backward
deriving DecidableEq, Repr

namespace Size

/-- The size of a state. -/
def state : Nat := 32

/-- The size of a transition on a range of bytes. -/
def transition : Nat := 8

/-- The size of a branch to one of several states. -/
def branch : Nat := 4

/-- The size for the characters of a set, some of them beyond ASCII. Forwards,
rows of bytes share their ends; backwards, they share their beginnings. -/
def rows (d : Direction) (rows : List ByteRow) : Nat :=
  match d with
  | .forward =>
    let nodes := (ByteRow.remainders 4 rows).eraseDups
    nodes.foldr (fun node n => state + transition * (ByteRow.heads node).length + n) state
  | .backward =>
    2 * state + state * (rows.flatMap ByteRow.beginnings).eraseDups.length + branch * rows.length

/-- The size for a character of a set. -/
def chars (d : Direction) (set : Ranges) : Nat :=
  match set with
  | [] => state
  | [(first, last)] =>
    if first = last then state * (Char.ofNat first).utf8Size
    else if last ≤ lastAscii then 2 * state + transition
    else rows d (ByteRow.ofRange first last)
  | _ =>
    if set.isWithin lastAscii then 2 * state + transition * set.length
    else rows d (ByteRow.ofRanges set)

/-- The size for a repetition of an expression of the given size. `consuming`
says whether the expression never matches the empty text. -/
def repetition (size : Nat) (consuming : Bool) : Nat → Option Nat → Nat
  | 0, some 1 => size + 2 * (state + branch)
  | 0, none =>
    if consuming then size + state + 2 * branch else size + 3 * state + 4 * branch
  | least, none => least * size + state + 2 * branch
  | least, some most =>
    let fixed := if least = 0 then state else least * size
    if most ≤ least then fixed
    else fixed + state + (most - least) * (size + state + 2 * branch)

end Size

namespace Expr

/-- Whether an expression never matches the empty text. -/
def isConsuming : Expr → Bool
  | empty => false
  | chars set => !set.isEmpty
  | look _ => false
  | capture e => e.isConsuming
  | seq a b => a.isConsuming || b.isConsuming
  | alt a b => a.isConsuming && b.isConsuming
  | repetition least _ e => least != 0 && e.isConsuming

/-- What an expression of the given size adds to a choice between several. A
choice among them joins in. -/
def sizeInChoice (size : Nat) : Expr → Nat
  | alt _ _ => size - 2 * Size.state
  | _ => size + Size.branch

/-- The size of the machine for an expression. -/
def size (d : Direction) : Expr → Nat
  | empty => Size.state
  | chars set => Size.chars d set
  | look _ => Size.state
  | capture e => e.size d + if d = .forward then 2 * Size.state else 0
  | seq a b => a.size d + b.size d
  | alt a b => 2 * Size.state + a.sizeInChoice (a.size d) + b.sizeInChoice (b.size d)
  | repetition least most e => Size.repetition (e.size d) e.isConsuming least most

/-- The size of the whole machine for an expression: it may begin anywhere, ends
in a state of its own, and forwards it captures the match. -/
def wholeSize (d : Direction) (e : Expr) : Nat :=
  let anywhere := Size.repetition (2 * Size.state + Size.transition) true 0 none
  anywhere + (capture e).size d + Size.state

/-- Whether an expression asserts something about words of all scripts. -/
def asksForWords : Expr → Bool
  | empty => false
  | chars _ => false
  | look l => l == .anyWord
  | capture e => e.asksForWords
  | seq a b => a.asksForWords || b.asksForWords
  | alt a b => a.asksForWords || b.asksForWords
  | repetition _ _ e => e.asksForWords

end Expr

end Michelson.Pattern
