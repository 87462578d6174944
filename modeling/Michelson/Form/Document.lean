import Michelson.Form
import Michelson.Json.Writer

/-!
# Documents of forms

The JSON document of a form. A variant without parts is its name; with one part
it is an object with that part under its name; with several it holds an array.
A record is an object. A note is its text or null, and an integer is its sign
with its digits in base `2 ^ 32`, the least significant first.
-/

namespace Michelson.Form

/-- The sign of an integer as a number: minus one, zero or one. -/
def signOf (z : Int) : Int :=
  if z < 0 then -1 else if z = 0 then 0 else 1

/-- The document of an integer. -/
def integerDocument (z : Int) : Json :=
  .array [.integer (signOf z), .array ((Numeral.limbs z.natAbs).map fun (d : Nat) => .integer d)]

/-- Labels before their documents. -/
def members : List String → List Json → List (Option String × Json)
  | label :: labels, j :: js => (some label, j) :: members labels js
  | _, _ => []

mutual

/-- The document of a form. -/
def document : Form → Json
  | .variant name [] => .text name
  | .variant name [part] => .object [(some name, document part)]
  | .variant name (part :: part' :: parts) =>
    .object [(some name, .array (document part :: document part' :: documents parts))]
  | .record _ labels parts => .object (members labels (documents parts))
  | .labelled name labels parts =>
    .object [(some name, .object (members labels (documents parts)))]
  | .list items => .array (documents items)
  | .note _ body => Json.textOrNull body
  | .text s => .text s
  | .integer z => integerDocument z
  | .number n => .integer n

/-- The documents of some forms. -/
def documents : List Form → List Json
  | [] => []
  | form :: forms => document form :: documents forms

end

end Michelson.Form

namespace Michelson

/-- The document of a slot for a note. -/
def Note.document {σ : Sigil} (n : Note σ) : Json := (Form.ofNote n).document

/-- The document of a type. -/
def Ty.document (t : Ty) : Json := (Form.ofTy t).document

/-- The document of a value. -/
def Data.document (d : Data) : Json := (Form.ofData d).document

/-- The document of a pair tree. -/
def PairTree.document (t : PairTree) : Json := (Form.ofPairTree t).document

/-- The document of a block. -/
def Block.document (b : Block) : Json := (Form.ofBlock b).document

/-- The document of a contract. -/
def Contract.document (c : Contract) : Json := (Form.ofContract c).document

/-- The canonical form of a contract: its document without any blanks. What the
source says by layout, by the order of sections and notes, and by parentheses
is not in it. -/
def Contract.canonical (c : Contract) : String := c.document.compact

end Michelson
