/-!
# Sets of numbers as ranges

A set is a list of ranges, both ends included. The operations that build sets
keep the ranges in ascending order and a gap between any two of them, so that a
set has one form.
-/

namespace Michelson

/-- A set of numbers: ranges with both ends included. -/
abbrev Ranges := List (Nat × Nat)

namespace Ranges

/-- Whether a number lies in one of the ranges. -/
def contains (rs : Ranges) (n : Nat) : Bool :=
  rs.any fun (first, last) => first ≤ n && n ≤ last

/-- Adds a range, and joins it with those that it touches. -/
def insert (r : Nat × Nat) : Ranges → Ranges
  | [] => [r]
  | s :: rest =>
    if r.2 + 1 < s.1 then r :: s :: rest
    else if s.2 + 1 < r.1 then s :: insert r rest
    else insert (min r.1 s.1, max r.2 s.2) rest

/-- The numbers in one set or the other. -/
def union (a b : Ranges) : Ranges := a.foldr insert b

/-- The numbers from `next` to `top` that are not in the set. -/
def gaps (top next : Nat) : Ranges → Ranges
  | [] => if next ≤ top then [(next, top)] else []
  | (first, last) :: rest =>
    if next < first then (next, first - 1) :: gaps top (last + 1) rest
    else gaps top (last + 1) rest

/-- The numbers up to `top` that are not in the set. -/
def complement (top : Nat) (a : Ranges) : Ranges := gaps top 0 a

/-- The numbers up to `top` in both sets. -/
def inter (top : Nat) (a b : Ranges) : Ranges :=
  complement top (union (complement top a) (complement top b))

/-- The numbers up to `top` in the first set and not in the second. -/
def diff (top : Nat) (a b : Ranges) : Ranges := inter top a (complement top b)

/-- Whether no number above `top` is in the set. -/
def isWithin (top : Nat) (a : Ranges) : Bool := a.all fun r => r.2 ≤ top

end Ranges

end Michelson
