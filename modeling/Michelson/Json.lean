import Michelson.Text.Numeral

/-!
# JSON documents

A document as a tree. Members keep their order and may repeat a key. Two things
that a document can say, and that no encoded tree says, are kept apart: a
string whose escapes leave a surrogate without its partner denotes no text, and
a number that is not a plain integer is kept as it is written.
-/

namespace Michelson

/-- A JSON document. -/
inductive Json where
  | null
  | bool (value : Bool)
  | integer (value : Int)
  /-- a number with a fraction or an exponent, or negative zero -/
  | real (literal : String)
  /-- a string; `none` if it denotes no text -/
  | string (text : Option String)
  | array (items : List Json)
  | object (members : List (Option String × Json))

namespace Json

/-- The string with the given text. -/
def text (s : String) : Json := .string (some s)

/-- The object with the given members. -/
def record (members : List (String × Json)) : Json :=
  .object (members.map fun (k, v) => (some k, v))

/-- A text, or null in its place. -/
def textOrNull : Option String → Json
  | some s => text s
  | none => null

/-- A number, or null in its place. -/
def natOrNull : Option Nat → Json
  | some n => integer n
  | none => null

end Json

end Michelson
