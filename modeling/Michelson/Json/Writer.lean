import Michelson.Json

/-!
# Writing JSON

A document has a compact form, without any blanks, and a pretty form, in which
every item and member has a line of its own, indented by two spaces a level.
Empty arrays and objects are written without a line break in both.

In strings the quote, the backslash and the characters below U+0020 are
escaped, and nothing else.
-/

namespace Michelson.Json

/-- A character of a string. -/
def escapeChar (c : Char) : List Char :=
  if c = '"' then ['\\', '"']
  else if c = '\\' then ['\\', '\\']
  else if c.toNat = 0x08 then ['\\', 'b']
  else if c.toNat = 0x09 then ['\\', 't']
  else if c.toNat = 0x0A then ['\\', 'n']
  else if c.toNat = 0x0C then ['\\', 'f']
  else if c.toNat = 0x0D then ['\\', 'r']
  else if c.toNat < 0x20 then
    ['\\', 'u', '0', '0', Nat.digitChar (c.toNat / 16), Nat.digitChar (c.toNat % 16)]
  else [c]

/-- A string with its quotes. -/
def quote (s : String) : List Char :=
  '"' :: (s.toList.flatMap escapeChar ++ ['"'])

/-- A string, or the escape of a lone surrogate for one that denotes no text. -/
def quoteOrLone : Option String → List Char
  | some s => quote s
  | none => ['"', '\\', 'u', 'd', '8', '0', '0', '"']

mutual

/-- The compact form of a document. -/
def compactChars : Json → List Char
  | .null => ['n', 'u', 'l', 'l']
  | .bool true => ['t', 'r', 'u', 'e']
  | .bool false => ['f', 'a', 'l', 's', 'e']
  | .integer z => Numeral.signedDecimal z
  | .real literal => literal.toList
  | .string s => quoteOrLone s
  | .array [] => ['[', ']']
  | .array (x :: xs) => '[' :: (compactChars x ++ compactItems xs)
  | .object [] => ['{', '}']
  | .object ((k, v) :: ms) => '{' :: (quoteOrLone k ++ ':' :: (compactChars v ++ compactMembers ms))

/-- The items of an array after the first. -/
def compactItems : List Json → List Char
  | [] => [']']
  | x :: xs => ',' :: (compactChars x ++ compactItems xs)

/-- The members of an object after the first. -/
def compactMembers : List (Option String × Json) → List Char
  | [] => ['}']
  | (k, v) :: ms => ',' :: (quoteOrLone k ++ ':' :: (compactChars v ++ compactMembers ms))

end

/-- A line break and the blanks of an indentation level. -/
def newLine (level : Nat) : List Char :=
  '\n' :: List.replicate (2 * level) ' '

mutual

/-- The pretty form of a document at an indentation level. -/
def prettyChars (level : Nat) : Json → List Char
  | .null => ['n', 'u', 'l', 'l']
  | .bool true => ['t', 'r', 'u', 'e']
  | .bool false => ['f', 'a', 'l', 's', 'e']
  | .integer z => Numeral.signedDecimal z
  | .real literal => literal.toList
  | .string s => quoteOrLone s
  | .array [] => ['[', ']']
  | .array (x :: xs) =>
    '[' :: (newLine (level + 1) ++ prettyChars (level + 1) x ++ prettyItems level xs)
  | .object [] => ['{', '}']
  | .object ((k, v) :: ms) =>
    '{' :: (newLine (level + 1) ++ quoteOrLone k ++ ':' :: ' ' ::
      (prettyChars (level + 1) v ++ prettyMembers level ms))

/-- The items of an array after the first. -/
def prettyItems (level : Nat) : List Json → List Char
  | [] => newLine level ++ [']']
  | x :: xs => ',' :: (newLine (level + 1) ++ prettyChars (level + 1) x ++ prettyItems level xs)

/-- The members of an object after the first. -/
def prettyMembers (level : Nat) : List (Option String × Json) → List Char
  | [] => newLine level ++ ['}']
  | (k, v) :: ms =>
    ',' :: (newLine (level + 1) ++ quoteOrLone k ++ ':' :: ' ' ::
      (prettyChars (level + 1) v ++ prettyMembers level ms))

end

/-- The compact form of a document. -/
def compact (j : Json) : String := String.ofList (compactChars j)

/-- The pretty form of a document. -/
def pretty (j : Json) : String := String.ofList (prettyChars 0 j)

end Michelson.Json
