import Michelson.Json

/-!
# Decoders

A decoder turns a document into a value of some type, or refuses it. Its first
argument is the number of brackets that may still be opened. Only brackets that
a decoder looks into count: a member that no field asks for is ignored, however
deep it is.

* `Decoder.variant` reads a choice: the name of a variant, or an object with
  that name as its only key and the payload under it. A variant without a
  payload may be given null as one.
* `Decoder.record` reads labelled parts: an object with the labels among its
  keys, or an array of all parts in order.
* `Decoder.list` reads an array of any length, and `Decoder.tuple` and its
  relatives read an array with a place for each part.
-/

namespace Michelson

/-- A way to read a value from a document. -/
def Decoder (α : Type) : Type := Nat → Json → Option α

namespace Decoder

variable {α β γ δ ε ζ : Type}

/-- The brackets that may be open in a document that is read. -/
def maxOpen : Nat := 127

/-- A decoder followed by a total function. -/
def map (f : α → β) (d : Decoder α) : Decoder β := fun budget j => (d budget j).map f

/-- A text. -/
def text : Decoder String
  | _, .string s => s
  | _, _ => none

/-- A text, or null in its place. -/
def textOrNull : Decoder (Option String)
  | _, .null => some none
  | _, .string (some s) => some (some s)
  | _, _ => none

/-- True or false. -/
def bool : Decoder Bool
  | _, .bool b => some b
  | _, _ => none

/-- A natural number below a bound. -/
def natBelow (bound : Nat) : Decoder Nat
  | _, .integer z => if 0 ≤ z ∧ z < bound then some z.toNat else none
  | _, _ => none

/-- A value, or null in its place. -/
def orNull (d : Decoder α) : Decoder (Option α)
  | _, .null => some none
  | budget, j => (d budget j).map some

/-- The items of an array. -/
def tuple (read : Nat → List Json → Option α) : Decoder α
  | budget + 1, .array items => read budget items
  | _, _ => none

/-- An array of any length. -/
def list (d : Decoder α) : Decoder (List α) :=
  tuple fun budget items => items.mapM (d budget)

/-- An array of two parts. -/
def tuple2 (a : Decoder α) (b : Decoder β) (build : α → β → γ) : Decoder γ :=
  tuple fun budget items =>
    match items with
    | [x, y] => do
      let x ← a budget x
      let y ← b budget y
      some (build x y)
    | _ => none

/-- An array of three parts. -/
def tuple3 (a : Decoder α) (b : Decoder β) (c : Decoder γ) (build : α → β → γ → δ) :
    Decoder δ :=
  tuple fun budget items =>
    match items with
    | [x, y, z] => do
      let x ← a budget x
      let y ← b budget y
      let z ← c budget z
      some (build x y z)
    | _ => none

/-- An array of four parts. -/
def tuple4 (a : Decoder α) (b : Decoder β) (c : Decoder γ) (d : Decoder δ)
    (build : α → β → γ → δ → ε) : Decoder ε :=
  tuple fun budget items =>
    match items with
    | [w, x, y, z] => do
      let w ← a budget w
      let x ← b budget x
      let y ← c budget y
      let z ← d budget z
      some (build w x y z)
    | _ => none

/-- An array of five parts. -/
def tuple5 (a : Decoder α) (b : Decoder β) (c : Decoder γ) (d : Decoder δ) (e : Decoder ε)
    (build : α → β → γ → δ → ε → ζ) : Decoder ζ :=
  tuple fun budget items =>
    match items with
    | [v, w, x, y, z] => do
      let v ← a budget v
      let w ← b budget w
      let x ← c budget x
      let y ← d budget y
      let z ← e budget z
      some (build v w x y z)
    | _ => none

/-- The value of the only member with the given key. It may be missing, but not
repeated. -/
def member? (label : String) (members : List (Option String × Json)) :
    Option (Option Json) :=
  match members.filter fun m => m.1 == some label with
  | [] => some none
  | [(_, j)] => some (some j)
  | _ => none

/-- Labelled parts: those of an object, of which some may be missing, or all of
an array. -/
def record (labels : List String) (read : Nat → List (Option Json) → Option α) : Decoder α
  | budget + 1, .object members =>
    -- a key has to be a text, even one that no label asks for
    if members.all fun m => m.1.isSome then do
      let parts ← labels.mapM fun label => member? label members
      read budget parts
    else none
  | budget + 1, .array items =>
    if items.length = labels.length then read budget (items.map some) else none
  | _, _ => none

/-- A record of two parts, both of which have to be there. -/
def record2 (label label' : String) (a : Decoder α) (b : Decoder β) (build : α → β → γ) :
    Decoder γ :=
  record [label, label'] fun budget parts =>
    match parts with
    | [some x, some y] => do
      let x ← a budget x
      let y ← b budget y
      some (build x y)
    | _ => none

/-- What follows the name of a variant. -/
inductive Payload (α : Type) where
  | empty (value : α)
  | full (decoder : Decoder α)

/-- A choice between named variants. -/
def variant (cases : String → Option (Payload α)) : Decoder α
  | _, .string (some name) =>
    match cases name with
    | some (.empty a) => some a
    | _ => none
  | budget + 1, .object [(some name, j)] =>
    match cases name, j with
    | some (.empty a), .null => some a
    | some (.full d), j => d budget j
    | _, _ => none
  | _, _ => none

/-- A choice between values without payloads, each by its name. -/
def choice (name : α → String) (values : List α) : Decoder α :=
  variant fun word => (values.find? fun a => name a == word).map .empty

end Decoder

end Michelson
