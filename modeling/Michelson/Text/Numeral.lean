/-!
# Numerals

Digits of the radices 2 to 16, the value of a run of digits, and the decimal
and hexadecimal digits of a number. Digits are ASCII; letters count in both
cases when they are read and are written in lower case.
-/

namespace Michelson.Numeral

/-- The value of the digit `c` in the given radix. -/
def digit? (radix : Nat) (c : Char) : Option Nat :=
  let value :=
    if '0' ≤ c ∧ c ≤ '9' then some (c.toNat - '0'.toNat)
    else if 'a' ≤ c ∧ c ≤ 'f' then some (c.toNat - 'a'.toNat + 10)
    else if 'A' ≤ c ∧ c ≤ 'F' then some (c.toNat - 'A'.toNat + 10)
    else none
  value.filter (· < radix)

/-- Whether `c` is a digit in the given radix. -/
def isDigit (radix : Nat) (c : Char) : Bool :=
  (digit? radix c).isSome

/-- The number that a run of digits denotes, the most significant digit first. -/
def value (radix : Nat) (digits : List Char) : Nat :=
  digits.foldl (fun n c => n * radix + (digit? radix c).getD 0) 0

/-- The number that a run of digits denotes when every intermediate product and
sum is cut down to `cap`. -/
def cappedValue (cap radix : Nat) (digits : List Char) : Nat :=
  digits.foldl (fun n c => min cap (min cap (n * radix) + (digit? radix c).getD 0)) 0

/-- The decimal digits of a number, without leading zeros. -/
def decimal (n : Nat) : List Char :=
  Nat.toDigits 10 n

/-- The decimal digits of an integer, after a minus sign when it is negative. -/
def signedDecimal : Int → List Char
  | .ofNat n => decimal n
  | .negSucc n => '-' :: decimal (n + 1)

/-- The two hexadecimal digits of a byte. -/
def hexByte (b : UInt8) : List Char :=
  [Nat.digitChar (b.toNat / 16), Nat.digitChar (b.toNat % 16)]

/-- The hexadecimal digits of a byte string. -/
def hexBytes (bytes : List UInt8) : List Char :=
  bytes.flatMap hexByte

/-- The bytes that a run of hexadecimal digits denotes, two digits a byte. -/
def ofHex? : List Char → Option (List UInt8)
  | [] => some []
  | [_] => none
  | high :: low :: rest => do
    let h ← digit? 16 high
    let l ← digit? 16 low
    let bytes ← ofHex? rest
    some (UInt8.ofNat (h * 16 + l) :: bytes)

/-- The numbers of 32 bits are those below `2 ^ 32`. -/
def bound32 : Nat := 0x100000000

/-- The numbers of 64 bits are those below `2 ^ 64`. -/
def bound64 : Nat := 0x10000000000000000

/-- The digits of a number in base `2 ^ 32`, the least significant digit first
and without a zero at the end. The first argument bounds their number. -/
def limbsWithin : Nat → Nat → List Nat
  | 0, _ => []
  | _ + 1, 0 => []
  | bound + 1, n => n % bound32 :: limbsWithin bound (n / bound32)

/-- The digits of a number in base `2 ^ 32`, the least significant digit first
and without a zero at the end. A number has no more such digits than bits. -/
def limbs (n : Nat) : List Nat :=
  limbsWithin (n.log2 + 1) n

/-- The number with the given digits in base `2 ^ 32`, the least significant
digit first. -/
def ofLimbs (digits : List Nat) : Nat :=
  digits.foldr (fun d n => d + bound32 * n) 0

end Michelson.Numeral
