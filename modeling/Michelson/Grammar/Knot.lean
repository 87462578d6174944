import Michelson.Rule

/-!
# The knot of the grammar

Types nest in types, and values, blocks and instructions nest in each other.
Each rule of the grammar is written against a `Knot`: the rules to use for what
is nested in it. Tying the knot then is iterating `Knot → Knot` from rules to
which no calls are left; a property of all rules follows by one induction, from
the untied rules and through one step.
-/

namespace Michelson.Grammar

/-- The rules that other rules call for what is nested in them. -/
structure Knot where
  /-- a type; with `true`, in a place where it may carry a field note -/
  type : Bool → Rule (Note .field × Ty)
  comparable : Rule Comparable
  value : Rule Data
  block : Rule Block
  /-- the letters of a macro name that spell a pair tree -/
  pairTree : Rule PairTree

namespace Knot

/-- The rules to which no calls are left. -/
def exhausted : Knot where
  type _ := .exhausted
  comparable := .exhausted
  value := .exhausted
  block := .exhausted
  pairTree := .exhausted

/-- A type in a place where it takes no field note. -/
def plainType (g : Knot) : Rule Ty := do
  let (_, t) ← g.type false
  pure t

end Knot

end Michelson.Grammar
