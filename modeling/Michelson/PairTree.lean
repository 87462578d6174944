import Michelson.Note

/-!
# Pair trees

The shape of a nested pair, as the names of the pairing macros spell it. The
leaves are the components; each has a slot for the variable and for the field
it is bound to.
-/

namespace Michelson

/-- A binary tree of pairs with notes at its leaves. -/
inductive PairTree where
  | leaf (var : Note .var) (field : Note .field)
  | node (left right : PairTree)
deriving DecidableEq, Repr

namespace PairTree

/-- A leaf without notes. -/
def bare : PairTree := leaf .absent .absent

/-- The number of leaves. -/
def leafCount : PairTree → Nat
  | leaf _ _ => 1
  | node l r => l.leafCount + r.leafCount

/-- The number of pairs on the longest way to a leaf. -/
def height : PairTree → Nat
  | leaf _ _ => 0
  | node l r => max l.height r.height + 1

/-- The shape of a tree: the tree without its notes. -/
def stripped : PairTree → PairTree
  | leaf _ _ => bare
  | node l r => node l.stripped r.stripped

/-- The notes of the leaves, from left to right. -/
def leaves : PairTree → List (Note .var × Note .field)
  | leaf v f => [(v, f)]
  | node l r => l.leaves ++ r.leaves

/-- Hands notes out to the leaves from left to right, and returns those left
over. Leaves for which none are left keep their own. -/
def assign : PairTree → List (Note .var × Note .field) →
    PairTree × List (Note .var × Note .field)
  | leaf v f, [] => (leaf v f, [])
  | leaf _ _, (v, f) :: rest => (leaf v f, rest)
  | node l r, notes =>
    let (l', rest) := l.assign notes
    let (r', rest') := r.assign rest
    (node l' r', rest')

/-- The tree with notes handed out to its leaves from left to right. Leaves past
the end of the list keep their own notes, and notes past the last leaf are
dropped. -/
def withLeafNotes (t : PairTree) (notes : List (Note .var × Note .field)) : PairTree :=
  (t.assign notes).1

mutual

/-- The letters that spell a tree on the left of a pair: `A` for a leaf. -/
def leftName : PairTree → List Char
  | leaf _ _ => ['A']
  | node l r => 'P' :: (l.leftName ++ r.rightName)

/-- The letters that spell a tree on the right of a pair: `I` for a leaf. -/
def rightName : PairTree → List Char
  | leaf _ _ => ['I']
  | node l r => 'P' :: (l.leftName ++ r.rightName)

end

end PairTree

end Michelson
