/-!
# Notes

A note is a name that a type or an instruction carries for the benefit of a
reader. Its sigil says what it names: `:` a type, `@` a variable, `%` a field.
Every slot of the tree holds the note of one sigil, or none.
-/

namespace Michelson

/-- What a note names. -/
inductive Sigil where
  | type
  | var
  | field
deriving DecidableEq, Repr

namespace Sigil

/-- The character that introduces a note. -/
def char : Sigil → Char
  | type => ':'
  | var => '@'
  | field => '%'

/-- The name of the kind of note, as dumps of a tree show it. -/
def label : Sigil → String
  | type => "TypeNote"
  | var => "VarNote"
  | field => "FieldNote"

end Sigil

/-- A slot for a note of one sigil: the text after the sigil, or nothing. A
note whose text is empty is present. -/
structure Note (σ : Sigil) where
  body? : Option String
deriving DecidableEq, Repr

namespace Note

variable {σ : Sigil}

/-- The empty slot. -/
def absent : Note σ := ⟨none⟩

/-- The note with the given text. -/
def named (body : String) : Note σ := ⟨some body⟩

/-- Whether the slot is filled. -/
def isPresent (n : Note σ) : Bool := n.body?.isSome

instance : Inhabited (Note σ) := ⟨absent⟩

/-- Whether `c` may stand in the text of a note, after its marker. -/
def isBodyChar (c : Char) : Bool :=
  c.isAlphanum || c == '.' || c == '_' || c == '\\'

/-- The marker that may open the text of a note: `%%`, `@` or `%`. -/
def marker : List Char → List Char
  | '%' :: '%' :: _ => ['%', '%']
  | '%' :: _ => ['%']
  | '@' :: _ => ['@']
  | _ => []

/-- The text of a note at the front of `cs`: an optional marker and the longest
run of body characters after it. -/
def scan (cs : List Char) : List Char :=
  marker cs ++ (cs.drop (marker cs).length).takeWhile isBodyChar

/-- The markers that may open the text of a note. -/
def markers : List (List Char) := [[], ['%', '%'], ['@'], ['%']]

/-- Whether `body` is the whole text of some note: a marker and body characters
after it. -/
def isBody (body : List Char) : Bool :=
  markers.any fun m => m.isPrefixOf body && (body.drop m.length).all isBodyChar

/-- Whether the text of the note, if there is one, is the whole text of a note. -/
def isWellFormed (n : Note σ) : Bool := n.body?.all fun body => isBody body.toList

end Note

end Michelson
