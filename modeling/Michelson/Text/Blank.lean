/-!
# Blank characters

The 25 characters of the White_Space property. Source text may hold any of
them between two tokens; the line feed is the only one that starts a new line.
-/

namespace Michelson

/-- Whether `c` has the White_Space property. -/
def isBlank (c : Char) : Bool :=
  let n := c.toNat
  (0x09 ≤ n && n ≤ 0x0D) || n == 0x20 || n == 0x85 || n == 0xA0 || n == 0x1680 ||
    (0x2000 ≤ n && n ≤ 0x200A) || n == 0x2028 || n == 0x2029 || n == 0x202F ||
    n == 0x205F || n == 0x3000

/-- The line feed is blank. -/
@[simp]
theorem isBlank_newline : isBlank '\n' = true := by decide

/-- The space is blank. -/
@[simp]
theorem isBlank_space : isBlank ' ' = true := by decide

end Michelson
