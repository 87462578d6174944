import Michelson.WellFormed

/-!
# Code as data

Braces around nothing but braces can be read as code or as a sequence of
values. A value in source text is read as a sequence where it can be; so a
block counts as code only if it has a step of its own.
-/

namespace Michelson

mutual

/-- The value that a nested block is read as; a step of another kind is none. -/
def nestedValue : Op → List Data
  | .seq block => if Block.hasOwnStep block then [.code block] else [.seq (nestedValues block)]
  | .prim _ => []
  | .mac _ => []

/-- The values that the nested blocks among some steps are read as. -/
def nestedValues : List Op → List Data
  | [] => []
  | o :: os => nestedValue o ++ nestedValues os

end

/-- The value that the source text of a block is read as. -/
def Data.ofBlock (b : Block) : Data :=
  if Block.hasOwnStep b then .code b else .seq (nestedValues b)

end Michelson
