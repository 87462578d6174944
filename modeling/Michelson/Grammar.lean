import Michelson.Grammar.Instructions
import Michelson.Grammar.Types
import Michelson.Grammar.Values

/-!
# The grammar

The rules of the grammar, tied together. A rule calls itself again at the same
place at most once, by way of the block that a value may be; every other call
comes after some text. So a number of calls that is twice the length of the
text, and two more, is enough.
-/

namespace Michelson.Grammar

namespace Knot

/-- The rules with one more call left than those of `g`. -/
def next (g : Knot) : Knot where
  type := typeRule g
  comparable := comparableRule g
  value := valueRule g
  block := blockRule g
  pairTree := pairTreeRule g

/-- The rules with `calls` calls left. -/
def tied (calls : Nat) : Knot := calls.repeat next exhausted

end Knot

/-- The calls that are enough for a text. -/
def callsFor (text : List Char) : Nat := 2 * text.length + 2

end Michelson.Grammar
