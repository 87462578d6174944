import Michelson.Rule.Layout

/-!
# Integer, bytes and string literals

An integer is an optional minus sign and a run of decimal digits of any length.
A bytes literal is `0x` and a run of hexadecimal digits. Neither may be followed
directly by a word character. A string stands between double quotes; a
backslash in it introduces an escape.
-/

namespace Michelson

namespace Literal

/-- The sign and the digits of the integer at the front of a text. -/
def scanInteger (cs : List Char) : Bool × List Char :=
  match cs with
  | '-' :: rest => (true, rest.takeWhile Char.isDigit)
  | _ => (false, cs.takeWhile Char.isDigit)

/-- The integer with the given sign and digits. -/
def integerValue (negative : Bool) (digits : List Char) : Int :=
  if negative then -(Numeral.value 10 digits : Int) else Numeral.value 10 digits

/-- The largest code that a numeric escape can accumulate. -/
def codeCap : Nat := 0xFFFFFFFF

/-- The character with the given code, if there is one. -/
def charOfCode? (code : Nat) : Option Char :=
  if Nat.isValidChar code then some (Char.ofNat code) else none

/-- The character that a one-letter escape denotes. -/
def simpleEscape? : Char → Option Char
  | 'n' => some '\n'
  | 't' => some '\t'
  | 'r' => some '\r'
  | 'b' => some (Char.ofNat 0x08)
  | 'f' => some (Char.ofNat 0x0C)
  | 'v' => some (Char.ofNat 0x0B)
  | 'a' => some (Char.ofNat 0x07)
  | '\\' => some '\\'
  | '"' => some '"'
  | '\'' => some '\''
  | _ => none

/-- A numeric escape: the longest run of digits of the radix, at least one. The
error is placed at `start`. -/
def numericEscape (radix : Nat) (start : Position) (c : Cursor) :
    Except Error (Char × Cursor) :=
  let digits := c.rest.takeWhile (Numeral.isDigit radix)
  if digits.isEmpty then .error (.lexical start .escapeWithoutDigits)
  else
    let code := Numeral.cappedValue codeCap radix digits
    match charOfCode? code with
    | some ch => .ok (ch, c.skip digits.length)
    | none => .error (.lexical start (.noSuchCharacter code))

/-- The escape after a backslash: the character it denotes and the cursor after
it. -/
def escape (c : Cursor) : Except Error (Char × Cursor) :=
  match c.rest with
  | [] => .error (.lexical c.position .unterminatedEscape)
  | d :: _ =>
    match simpleEscape? d with
    | some ch => .ok (ch, c.skip 1)
    | none =>
      if d = 'x' then numericEscape 16 c.position (c.skip 1)
      else if d = 'o' then numericEscape 8 c.position (c.skip 1)
      else if d.isDigit then numericEscape 10 c.position c
      else .error (.lexical c.position (.unknownEscape d))

/-- The characters of a string after its opening quote at `start`, and the
cursor after its closing quote. Each character passes some text, so a bound
beyond the length of the text is never met. -/
def stringBody (start : Position) : Nat → Cursor → Except Error (List Char × Cursor)
  | 0, _ => .error (.lexical start .unterminatedString)
  | bound + 1, c =>
    match c.rest with
    | [] => .error (.lexical start .unterminatedString)
    | d :: _ =>
      if d = '"' then .ok ([], c.skip 1)
      else if d = '\\' then
        match escape (c.skip 1) with
        | .error e => .error e
        | .ok (ch, c') =>
          match stringBody start bound c' with
          | .error e => .error e
          | .ok (chs, c'') => .ok (ch :: chs, c'')
      else
        match stringBody start bound (c.skip 1) with
        | .error e => .error e
        | .ok (chs, c') => .ok (d :: chs, c')

end Literal

namespace Grammar

open Rule

/-- An integer literal. -/
def integerLiteral : Rule Data := do
  let cs ← rest
  let (negative, digits) := Literal.scanInteger cs
  -- the minus sign is a character of the token
  let length := if negative then digits.length + 1 else digits.length
  if digits.isEmpty || !endsWord (cs.drop length) then fail .integer
  else do
    token length
    pure (.int (Literal.integerValue negative digits))

/-- A bytes literal. An odd number of digits is an error. -/
def bytesLiteral : Rule Data := do
  match ← rest with
  | '0' :: 'x' :: cs =>
    let digits := cs.takeWhile (Numeral.isDigit 16)
    if endsWord (cs.drop digits.length) then
      match Numeral.ofHex? digits with
      | some bytes => do
        token (digits.length + 2)
        pure (.bytes bytes)
      | none => do
        let p ← position
        raise (.literal p (.oddHexDigits (String.ofList ('0' :: 'x' :: digits))))
    else fail .bytes
  | _ => fail .bytes

/-- A string literal. -/
def stringLiteral : Rule Data := do
  let c ← cursor
  match c.rest with
  | '"' :: cs =>
    match Literal.stringBody c.position (cs.length + 1) (c.skip 1) with
    | .ok (text, c') => do
      moveTo c'
      layout
      pure (.string (String.ofList text))
    | .error e => raise e
  | _ => fail .string

end Grammar

end Michelson
