import Michelson.Source.Token

/-!
# Styles of source text

Source text may put any number of parentheses around a type or a value and may
or may not end a list with a semicolon. A style decides this for every node of
a tree. Nodes are told apart by their paths, and the style of a part is the
style of the whole after one step: a writer that hands `s.child i` on to its
parts leaves every choice free.
-/

namespace Michelson

/-- The free choices in source text, for the node at each path. -/
structure Style where
  /-- how many pairs of parentheses stand around the node -/
  parentheses : List Nat → Nat
  /-- whether a semicolon follows the last item of the list -/
  trailing : List Nat → Bool

namespace Style

/-- The style without redundant parentheses and semicolons. -/
def plain : Style := ⟨fun _ => 0, fun _ => false⟩

/-- The style of a part. -/
def child (s : Style) (i : Nat) : Style :=
  ⟨fun path => s.parentheses (i :: path), fun path => s.trailing (i :: path)⟩

@[simp]
theorem child_plain (i : Nat) : plain.child i = plain := rfl

/-- Tokens with as many pairs of parentheses around them as the style asks for. -/
def around (s : Style) (tokens : List Token) : List Token :=
  List.replicate (s.parentheses []) (.mark '(') ++ tokens ++
    List.replicate (s.parentheses []) (.mark ')')

@[simp]
theorem around_plain (tokens : List Token) : plain.around tokens = tokens := by
  simp [around, plain]

/-- Items with semicolons between them, and after the last if the style asks for
one. -/
def separated (s : Style) : List (List Token) → List Token
  | [] => []
  | [item] => if s.trailing [] then item ++ [.mark ';'] else item
  | item :: items => item ++ .mark ';' :: s.separated items

/-- A list in braces. -/
def braced (s : Style) (items : List (List Token)) : List Token :=
  .mark '{' :: (s.separated items ++ [.mark '}'])

end Style

end Michelson
