import Michelson.Grammar

/-!
# Reading whole texts

A text is read from its first character to its last, layout around it included.
The result is a tree or one error: the error that was raised, or else one made
from the furthest miss.
-/

namespace Michelson

/-- Whether some token, or layout, begins with `c`. -/
def canStartToken (c : Char) : Bool :=
  c.isAlphanum || isBlank c ||
    c ∈ ['{', '}', '(', ')', ';', '"', '-', '@', '%', ':', '#', '/', '_']

namespace Furthest

/-- The error that a miss amounts to when no alternative is left. -/
def error (f : Furthest) : Error :=
  if .noteBody ∈ f.expected then .note f.cursor.position f.expected
  else
    match f.cursor.peek? with
    | none => .grammar f.cursor.position f.expected
    | some c =>
      if canStartToken c then .grammar f.cursor.position f.expected
      else .lexical f.cursor.position (.strayCharacter c)

end Furthest

namespace State

/-- The error for a run that ended here without one of its own. -/
def error (s : State) : Error :=
  match s.furthest with
  | some f => f.error
  | none => .grammar s.cursor.position [.stated "input"]

end State

namespace Reply

variable {α : Type}

/-- The value of a run or its error. -/
def result (r : Reply α) : Except Error α :=
  match r.verdict with
  | .ok a => .ok a
  | .miss => .error r.state.error
  | .halt (.error e) => .error e
  | .halt .outOfFuel => .error r.state.error

/-- What happened in a run, the earliest event first. -/
def events (r : Reply α) : List Event := r.state.journal.reverse

end Reply

namespace Grammar

open Rule

variable {α : Type}

/-- A rule for a text from its beginning to its end. -/
def whole (r : Rule α) : Rule α := do
  layout
  let a ← r
  endOfInput
  pure a

/-- Reads a whole text by a rule of the grammar. -/
def run (rule : Knot → Rule α) (limit : Option Nat) (text : List Char) : Reply α :=
  whole (rule (Knot.tied (callsFor text))) limit (State.initial text)

end Grammar

/-- Reads a contract, with a limit on nesting, and tells what happened. -/
def Contract.read (limit : Option Nat) (text : String) : Reply Contract :=
  Grammar.run Grammar.contractRule limit text.toList

/-- Reads a contract, with a limit on nesting. -/
def Contract.parseWithin (limit : Option Nat) (text : String) : Except Error Contract :=
  (Contract.read limit text).result

/-- Reads a contract. -/
def Contract.parse (text : String) : Except Error Contract :=
  Contract.parseWithin none text

/-- Reads a type. -/
def Ty.parse (text : String) : Except Error Ty :=
  (Grammar.run Grammar.Knot.plainType none text.toList).result

/-- Reads a value. -/
def Data.parse (text : String) : Except Error Data :=
  (Grammar.run Grammar.Knot.value none text.toList).result

/-- Reads a block of code. -/
def Block.parse (text : String) : Except Error Block :=
  (Grammar.run Grammar.Knot.block none text.toList).result

end Michelson
