import Michelson.Note
import Michelson.Rule.Layout

/-!
# Tokens of source text

The source text of a tree is a list of tokens with layout between them. A token
keeps what it is made of as it is written: an integer its leading zeros, a
string its escapes.
-/

namespace Michelson

/-- A token of source text. -/
inductive Token where
  | word (letters : List Char)
  | integer (negative : Bool) (digits : List Char)
  /-- the hexadecimal digits after `0x` -/
  | bytes (digits : List Char)
  /-- what is written between the quotes -/
  | string (written : List Char)
  | note (sigil : Sigil) (body : List Char)
  /-- a brace, a parenthesis or a semicolon -/
  | mark (c : Char)
deriving DecidableEq, Repr

namespace Token

/-- The characters of a token. -/
def text : Token → List Char
  | word letters => letters
  | integer negative digits => if negative then '-' :: digits else digits
  | bytes digits => '0' :: 'x' :: digits
  | string written => '"' :: (written ++ ['"'])
  | note sigil body => sigil.char :: body
  | mark c => [c]

/-- Whether a quote after `written` ends the string that it opens: no quote stands
in it without a backslash before, and no backslash is left at its end. -/
def isClosed : List Char → Bool
  | [] => true
  | '\\' :: cs =>
    match cs with
    | [] => false
    | _ :: cs' => isClosed cs'
  | c :: cs => c != '"' && isClosed cs

/-- Whether a token is one of the language. The digits of a number may be any
run that is not empty; those of a bytes literal may be missing. -/
def isValid : Token → Bool
  | word letters => word? letters == some letters
  | integer _ digits => !digits.isEmpty && digits.all Char.isDigit
  | bytes digits => digits.all (Numeral.isDigit 16)
  | string written => isClosed written
  | note _ body => Note.isBody body
  | mark c => c ∈ ['{', '}', '(', ')', ';']

/-- Tokens with one space between neighbours. -/
def spaced : List Token → List Char
  | [] => []
  | [t] => t.text
  | t :: ts => t.text ++ ' ' :: spaced ts

end Token

end Michelson
