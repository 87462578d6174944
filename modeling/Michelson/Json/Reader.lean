import Michelson.Json

/-!
# Reading JSON

The strict grammar: four blanks, no comments, no trailing commas, no leading
zeros, no control characters in strings, and nothing after the document. A
document may be nested to any depth here; limits belong to those who use it.
-/

namespace Michelson.Json

/-- Passes the blanks of JSON. -/
def skipBlanks (cs : List Char) : List Char :=
  cs.dropWhile fun c => c == ' ' || c == '\t' || c == '\n' || c == '\r'

/-! ## Strings -/

/-- The number that four hexadecimal digits denote. -/
def hex4? (a b c d : Char) : Option Nat := do
  let w ← Numeral.digit? 16 a
  let x ← Numeral.digit? 16 b
  let y ← Numeral.digit? 16 c
  let z ← Numeral.digit? 16 d
  some (((w * 16 + x) * 16 + y) * 16 + z)

/-- The character that a one-letter escape denotes. -/
def simpleEscape? : Char → Option Char
  | '"' => some '"'
  | '\\' => some '\\'
  | '/' => some '/'
  | 'b' => some (Char.ofNat 0x08)
  | 'f' => some (Char.ofNat 0x0C)
  | 'n' => some '\n'
  | 'r' => some '\r'
  | 't' => some '\t'
  | _ => none

/-- The low surrogate that is escaped at the front of a text. -/
def lowSurrogate? : List Char → Option Nat
  | '\\' :: 'u' :: a :: b :: c :: d :: _ =>
    (hex4? a b c d).filter fun n => 0xDC00 ≤ n ∧ n ≤ 0xDFFF
  | _ => none

/-- What an escaped code denotes, given the text that follows the escape: a
character and how much of that text belongs to it. A high surrogate needs a low
one after it; a surrogate without its partner denotes no character. -/
def codePoint (code : Nat) (following : List Char) : Option Char × Nat :=
  if 0xD800 ≤ code ∧ code ≤ 0xDBFF then
    match lowSurrogate? following with
    | some low => (some (Char.ofNat (0x10000 + (code - 0xD800) * 0x400 + (low - 0xDC00))), 6)
    | none => (none, 0)
  else if 0xDC00 ≤ code ∧ code ≤ 0xDFFF then (none, 0)
  else (some (Char.ofNat code), 0)

/-- A character in front of a text, if both denote something. -/
def consChar : Option Char → Option (List Char) → Option (List Char)
  | some c, some cs => some (c :: cs)
  | _, _ => none

/-- The characters of a string after its opening quote, and the text after its
closing quote. The bound is on the number of characters. -/
def readChars : Nat → List Char → Option (Option (List Char) × List Char)
  | 0, _ => none
  | bound + 1, cs =>
    match cs with
    | [] => none
    | '"' :: rest => some (some [], rest)
    | '\\' :: 'u' :: a :: b :: c :: d :: rest => do
      let code ← hex4? a b c d
      -- a surrogate pair takes the second escape along
      let (ch, more) := codePoint code rest
      let (chs, rest') ← readChars bound (rest.drop more)
      some (consChar ch chs, rest')
    | '\\' :: e :: rest => do
      let ch ← simpleEscape? e
      let (chs, rest') ← readChars bound rest
      some (consChar (some ch) chs, rest')
    | c :: rest =>
      if c.toNat < 0x20 ∨ c = '\\' then none
      else do
        let (chs, rest') ← readChars bound rest
        some (consChar (some c) chs, rest')

/-- A string after its opening quote. -/
def readString (cs : List Char) : Option (Option String × List Char) := do
  let (chs, rest) ← readChars (cs.length + 1) cs
  some (chs.map String.ofList, rest)

/-! ## Numbers -/

/-- The digits at the front of a text, at least one, and the text after them. -/
def readDigits (cs : List Char) : Option (List Char × List Char) :=
  let digits := cs.takeWhile Char.isDigit
  if digits.isEmpty then none else some (digits, cs.drop digits.length)

/-- The fraction at the front of a text, which may be missing. -/
def readFraction (cs : List Char) : Option (List Char × List Char) :=
  match cs with
  | '.' :: rest => do
    let (digits, rest') ← readDigits rest
    some ('.' :: digits, rest')
  | _ => some ([], cs)

/-- The exponent at the front of a text, which may be missing. -/
def readExponent (cs : List Char) : Option (List Char × List Char) :=
  match cs with
  | e :: rest =>
    if e = 'e' ∨ e = 'E' then
      match rest with
      | sign :: rest' =>
        if sign = '+' ∨ sign = '-' then do
          let (digits, rest'') ← readDigits rest'
          some (e :: sign :: digits, rest'')
        else do
          let (digits, rest'') ← readDigits rest
          some (e :: digits, rest'')
      | [] => none
    else some ([], cs)
  | [] => some ([], cs)

/-- A number without its minus sign. -/
def readUnsigned (negative : Bool) (cs : List Char) : Option (Json × List Char) := do
  let (digits, rest) ← readDigits cs
  if digits.length > 1 ∧ digits.head? = some '0' then none
  else do
    let (fraction, rest) ← readFraction rest
    let (exponent, rest) ← readExponent rest
    let n := Numeral.value 10 digits
    -- a negative zero is no integer
    if fraction.isEmpty ∧ exponent.isEmpty ∧ ¬(negative ∧ n = 0) then
      some (.integer (if negative then -(n : Int) else n), rest)
    else
      let sign := if negative then ['-'] else []
      some (.real (String.ofList (sign ++ digits ++ fraction ++ exponent)), rest)

/-- A number. -/
def readNumber : List Char → Option (Json × List Char)
  | '-' :: cs => readUnsigned true cs
  | cs => readUnsigned false cs

/-! ## Documents -/

/-- Passes the given word. -/
def readWord (word : String) (j : Json) (cs : List Char) : Option (Json × List Char) :=
  if word.toList.isPrefixOf cs then some (j, cs.drop word.length) else none

mutual

/-- A document at the front of a text. The bound is on the calls left. -/
def readValue : Nat → List Char → Option (Json × List Char)
  | 0, _ => none
  | bound + 1, cs =>
    match skipBlanks cs with
    | '"' :: rest => do
      let (s, rest') ← readString rest
      some (.string s, rest')
    | '[' :: rest =>
      match skipBlanks rest with
      | ']' :: rest' => some (.array [], rest')
      | rest' => do
        let (items, rest'') ← readItems bound rest'
        some (.array items, rest'')
    | '{' :: rest =>
      match skipBlanks rest with
      | '}' :: rest' => some (.object [], rest')
      | rest' => do
        let (members, rest'') ← readMembers bound rest'
        some (.object members, rest'')
    | 'n' :: rest => readWord "null" .null ('n' :: rest)
    | 't' :: rest => readWord "true" (.bool true) ('t' :: rest)
    | 'f' :: rest => readWord "false" (.bool false) ('f' :: rest)
    | rest => readNumber rest

/-- One or more items and the closing bracket. -/
def readItems : Nat → List Char → Option (List Json × List Char)
  | 0, _ => none
  | bound + 1, cs => do
    let (j, rest) ← readValue bound cs
    match skipBlanks rest with
    | ',' :: rest' => do
      let (js, rest'') ← readItems bound rest'
      some (j :: js, rest'')
    | ']' :: rest' => some ([j], rest')
    | _ => none

/-- One or more members and the closing brace. -/
def readMembers : Nat → List Char → Option (List (Option String × Json) × List Char)
  | 0, _ => none
  | bound + 1, cs =>
    match skipBlanks cs with
    | '"' :: rest => do
      let (k, rest) ← readString rest
      match skipBlanks rest with
      | ':' :: rest => do
        let (j, rest) ← readValue bound rest
        match skipBlanks rest with
        | ',' :: rest' => do
          let (ms, rest'') ← readMembers bound rest'
          some ((k, j) :: ms, rest'')
        | '}' :: rest' => some ([(k, j)], rest')
        | _ => none
      | _ => none
    | _ => none

end

/-- Reads a whole document. Every second call passes a character, so twice the
length of the text, and two more, bounds the calls. -/
def parse (text : String) : Option Json := do
  let cs := text.toList
  let (j, rest) ← readValue (2 * cs.length + 2) cs
  if (skipBlanks rest).isEmpty then some j else none

end Michelson.Json
