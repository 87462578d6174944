import Michelson.Grammar.Knot
import Michelson.Grammar.Literals

/-!
# The grammar of values

The readings of a value are tried in turn: an integer, a string, bytes, a word
with its parts, a map, a sequence, and in the end a block of code. Parentheses
around a value mean nothing.
-/

namespace Michelson.Grammar

open Rule

/-- The parts of a literal after its word. -/
def dataParts (g : Knot) : Data.Head → Rule Data
  | .constant c => pure (.constant c)
  | .wrapped w => do
    let d ← g.value
    pure (.wrapped w d)
  | .pair => do
    let l ← g.value
    let r ← g.value
    pure (.pair l r)

/-- A literal that begins with a word. -/
def dataWord (g : Knot) : Rule Data := do
  match ← peekWord? with
  | none => fail .dataWord
  | some w =>
    match Data.Head.ofKeyword? (String.ofList w) with
    | none => fail .dataWord
    | some head => do
      token w.length
      dataParts g head

/-- One entry of a map. -/
def entry (g : Knot) : Rule Entry := do
  keyword "Elt"
  let k ← g.value
  let v ← g.value
  pure (.mk k v)

/-- A map. Empty braces are not read as one. -/
def mapLiteral (g : Knot) : Rule Data := do
  match ← braced (entry g) with
  -- the sequence, which is tried next, reads them
  | [] => miss
  | entries => pure (.map entries)

/-- A sequence. -/
def sequenceLiteral (g : Knot) : Rule Data := do
  let items ← braced g.value
  pure (.seq items)

/-- A block of code as a value. -/
def codeLiteral (g : Knot) : Rule Data := do
  let block ← g.block
  pure (.code block)

/-- A value without parentheses around it. -/
def plainValue (g : Knot) : Rule Data :=
  firstOf (codeLiteral g)
    [integerLiteral, stringLiteral, bytesLiteral, dataWord g, mapLiteral g, sequenceLiteral g]

/-- A value. -/
def valueRule (g : Knot) : Rule Data :=
  nested (attempt do
    match ← peek? with
    | some '(' => parenthesized g.value
    | _ => plainValue g)

end Michelson.Grammar
