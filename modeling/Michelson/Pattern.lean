import Michelson.Pattern.Reader
import Michelson.Pattern.Size

/-!
# Patterns

A pattern is read, its meaning is settled, and the machine for it must not be too
large. `Pattern.compile` gives the expression to search with
(`Pattern.Expr.occursIn`).
-/

namespace Michelson.Pattern

/-- Why a pattern cannot be used. -/
inductive Failure where
  | refused (refusal : Refusal)
  | tooLarge
  /-- words of all scripts are asked for -/
  | wordsUnknown
deriving DecidableEq, Repr

/-- The bytes that the machine for a pattern may take up. -/
def maxSize : Nat := 10485760

/-- The wording of a failure to use a pattern. -/
def Failure.message (pattern : List Char) : Failure → String
  | refused r => r.message pattern
  | tooLarge =>
    String.join ["Compiled regex exceeds size limit of ",
      String.ofList (Numeral.decimal maxSize), " bytes."]
  | wordsUnknown => "error building NFA"

/-- The tree of a pattern as an expression. -/
def Tree.toExpr (t : Tree) : Except Refusal Expr := do
  let (e, _) ← t.expr {}
  pure e

/-- The expression of a pattern. The machine is built forwards before it is
built backwards, and words are looked up in between. -/
def compile (pattern : List Char) : Except Failure Expr :=
  match Tree.read pattern >>= Tree.toExpr with
  | .error r => .error (.refused r)
  | .ok e =>
    if maxSize < e.wholeSize .forward then .error .tooLarge
    else if e.asksForWords then .error .wordsUnknown
    else if maxSize < e.wholeSize .backward then .error .tooLarge
    else .ok e

end Michelson.Pattern
