import Michelson.Grammar.Knot
import Michelson.Grammar.Notes

/-!
# The grammar of types

A type is a keyword, its notes and its components. Parentheses around a type
mean nothing. A component of an option, a pair or a union may carry a field
note among its own notes; the note is handed up to the node above.
-/

namespace Michelson.Grammar

open Rule

/-- The notes of a type node: a field note only where `withField` allows one. -/
def nodeNotes (withField : Bool) : Rule Notes :=
  if withField then componentNotes
  else do
    let n ← noteSlot .type
    pure { type := n }

/-- The components of a type after its keyword and its notes. -/
def components (g : Knot) (note : Note .type) : Ty.Head → Rule Ty
  | .atom a => pure (.atom note a)
  | .option => do
    let (f, t) ← g.type true
    pure (.option note f t)
  | .wrapped w => do
    let t ← g.plainType
    pure (.wrapped note w t)
  | .set => do
    let c ← g.comparable
    pure (.set note c)
  | .joint j => do
    let (lf, l) ← g.type true
    let (rf, r) ← g.type true
    pure (.joint note j lf rf l r)
  | .lambda => do
    let d ← g.plainType
    let c ← g.plainType
    pure (.lambda note d c)
  | .table t => do
    let k ← g.comparable
    let v ← g.plainType
    pure (.table note t k v)

/-- A type, with the field note that it carries for the node above. -/
def typeRule (g : Knot) (withField : Bool) : Rule (Note .field × Ty) :=
  nested (attempt do
    match ← peek? with
    | some '(' => parenthesized (g.type withField)
    | _ =>
      match ← peekWord? with
      | none => fail .type
      | some w =>
        match Ty.Head.ofKeyword? (String.ofList w) with
        | none => fail .type
        | some head => do
          token w.length
          let notes ← nodeNotes withField
          let t ← components g notes.type head
          pure (notes.field, t))

/-- A comparable type with its note. -/
def comparableRule (g : Knot) : Rule Comparable :=
  nested (attempt do
    match ← peek? with
    | some '(' => parenthesized g.comparable
    | _ =>
      match ← peekWord? with
      | none => fail .comparable
      | some w =>
        match Base.ofKeyword? (String.ofList w) with
        | none => fail .comparable
        | some base => do
          token w.length
          let n ← noteSlot .type
          pure ⟨base, n⟩)

end Michelson.Grammar
