import Michelson.Rule.Group
import Michelson.Rule.Layout

/-!
# The grammar of notes

A single note, and the groups of notes that follow the words of types and
instructions. In a group the notes may come in any order; of two slots with the
same sigil the first is filled first.
-/

namespace Michelson

/-- Whether `c` may follow the text of a note. -/
def mayFollowNote (c : Char) : Bool :=
  isBlank c || c ∈ [';', '{', '}', '(', ')', '#', '/', '@', '%', ':']

/-- The slots of the notes of an instruction. -/
structure Notes where
  type : Note .type := .absent
  var : Note .var := .absent
  field : Note .field := .absent
  otherField : Note .field := .absent
deriving DecidableEq, Repr

namespace Grammar

open Rule

/-- A note with the given sigil. -/
def note (σ : Sigil) : Rule (Note σ) :=
  attempt do
    match ← rest with
    | [] => fail (.note σ)
    | c :: cs =>
      if c = σ.char then do
        let body := Note.scan cs
        advance (1 + body.length)
        match ← peek? with
        | some d =>
          if mayFollowNote d then do
            layout
            pure (.named (String.ofList body))
          else fail .noteBody
        | none => do
          layout
          pure (.named (String.ofList body))
      else fail (.note σ)

/-- A slot for a note with the given sigil. -/
def noteSlot (σ : Sigil) : Rule (Note σ) := do
  match ← optional (note σ) with
  | some n => pure n
  | none => pure .absent

/-- The member of a group that fills the type slot. -/
def typeMember : Rule (Notes → Notes) :=
  slot (note .type) fun n notes => { notes with type := n }

/-- The member of a group that fills the variable slot. -/
def varMember : Rule (Notes → Notes) :=
  slot (note .var) fun n notes => { notes with var := n }

/-- The member of a group that fills the first field slot. -/
def fieldMember : Rule (Notes → Notes) :=
  slot (note .field) fun n notes => { notes with field := n }

/-- The member of a group that fills the second field slot. -/
def otherFieldMember : Rule (Notes → Notes) :=
  slot (note .field) fun n notes => { notes with otherField := n }

/-- A type note and a variable note. -/
def typeVarNotes : Rule Notes := group [typeMember, varMember] {}

/-- A variable note and a field note. -/
def varFieldNotes : Rule Notes := group [varMember, fieldMember] {}

/-- A type note, a variable note and a field note. -/
def typeVarFieldNotes : Rule Notes := group [typeMember, varMember, fieldMember] {}

/-- A type note, a variable note and two field notes. -/
def typeVarFieldsNotes : Rule Notes :=
  group [typeMember, varMember, fieldMember, otherFieldMember] {}

/-- The notes of a component of a type: a field note and a type note. -/
def componentNotes : Rule Notes := group [fieldMember, typeMember] {}

end Grammar

end Michelson
