import Michelson.Text.Ranges

/-!
# Characters as rows of bytes

A character is written as one to four bytes of UTF-8. The characters of a range
are written as the rows of bytes in which every byte lies in a range of its own;
for most ranges that takes several such rows of ranges.
-/

namespace Michelson

/-- Rows of bytes: those with every byte in its range. -/
abbrev ByteRow := List (Nat × Nat)

namespace ByteRow

/-- The number that is added to six bits to make a byte after the first. -/
def tailMark : Nat := 0x80

/-- How many numbers some tail bytes tell apart. -/
def capacity : Nat → Nat
  | 0 => 1
  | tails + 1 => 64 * capacity tails

/-- The rows for the numbers from `first` to `last`, of which the given number of
tail bytes takes six bits each and the byte before them the rest. To that byte
`mark` is added. -/
def split (mark : Nat) : Nat → Nat → Nat → List ByteRow
  | 0, first, last => [[(mark + first, mark + last)]]
  | tails + 1, first, last =>
    let unit := capacity (tails + 1)
    let (a, low) := (first / unit, first % unit)
    let (b, high) := (last / unit, last % unit)
    let under (x y : Nat) := List.map fun row : ByteRow => (mark + x, mark + y) :: row
    if a = b then under a a (split tailMark tails low high)
    else
      -- the bytes `a` and `b` are apart, unless all tails may follow them
      let start := if low = 0 then a else a + 1
      let stop := if high = unit - 1 then b + 1 else b
      let front := if low = 0 then [] else under a a (split tailMark tails low (unit - 1))
      let back := if high = unit - 1 then [] else under b b (split tailMark tails 0 high)
      let whole :=
        if start < stop then under start (stop - 1) (split tailMark tails 0 (unit - 1)) else []
      front ++ (whole ++ back)

/-- The ranges of characters with one form of rows: their ends, the number of
tail bytes, and the number that is added to the first byte. The codes left out
are those of no character. -/
def forms : List ((Nat × Nat) × Nat × Nat) :=
  [((0, 0x7F), 0, 0), ((0x80, 0x7FF), 1, 0xC0), ((0x800, 0xD7FF), 2, 0xE0),
   ((0xE000, 0xFFFF), 2, 0xE0), ((0x10000, 0x10FFFF), 3, 0xF0)]

/-- The rows for the characters of a range. -/
def ofRange (first last : Nat) : List ByteRow :=
  forms.flatMap fun ((bottom, top), tails, mark) =>
    if max first bottom ≤ min last top then split mark tails (max first bottom) (min last top)
    else []

/-- The rows for the characters of a set. -/
def ofRanges (a : Ranges) : List ByteRow := a.flatMap fun (first, last) => ofRange first last

/-- The ranges with which some rows begin. -/
def heads (rows : List ByteRow) : List (Nat × Nat) := (rows.filterMap List.head?).eraseDups

/-- What follows in some rows after the range `r` at the front. -/
def behind (r : Nat × Nat) (rows : List ByteRow) : List ByteRow :=
  rows.filterMap fun
    | [] => none
    | s :: rest => if s = r then some rest else none

/-- What may be left of some rows after any number of bytes below a bound, as
often as it arises. Nothing is left at the end of the rows. -/
def remainders : Nat → List ByteRow → List (List ByteRow)
  | 0, _ => []
  | bound + 1, rows =>
    if (heads rows).isEmpty then []
    else rows :: (heads rows).flatMap fun r => remainders bound (behind r rows)

/-- The beginnings of a row, without the empty one. -/
def beginnings : ByteRow → List ByteRow
  | [] => []
  | r :: row => [r] :: (beginnings row).map (r :: ·)

end ByteRow

end Michelson
