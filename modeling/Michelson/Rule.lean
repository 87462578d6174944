import Michelson.Code
import Michelson.Error

/-!
# Grammar rules

A grammar rule reads a part of a text. It ends in one of three ways: with a
value; with a *miss*, after which another alternative may be tried at the same
place; or with a *halt*, which no alternative can undo.

Rules run over a state with four parts: the cursor; the depth of nesting; the
record of the furthest place at which some alternative missed, with everything
that was expected there; and a journal of what happened, the latest event
first. A miss gives the cursor back but keeps the record and the journal, so
that the reason of a failed run can be told in the end.

Rules that call each other are given the calls that are left to them as fuel.
Running out of it is a halt of its own kind.
-/

namespace Michelson

/-- The furthest place at which an alternative missed, and what was expected
there, in the order in which it was recorded and without repetition. -/
structure Furthest where
  cursor : Cursor
  expected : List Expectation
deriving DecidableEq, Repr

/-- The three sections of a contract. -/
inductive Part where
  | parameter
  | storage
  | code
deriving DecidableEq, Repr

namespace Part

/-- The word that opens the section. -/
def keyword : Part → String
  | parameter => "parameter"
  | storage => "storage"
  | code => "code"

end Part

/-- What a rule noted down while it ran. -/
inductive Event where
  /-- an alternative missed -/
  | missed (position : Position) (expected : Expectation)
  /-- an error was raised -/
  | raised (error : Error)
  /-- the contents of a section begin here -/
  | part (part : Part) (position : Position)
  /-- a block is tried here -/
  | block (position : Position)
  /-- a macro was read, beginning here -/
  | macroRead (position : Position) (mac : Macro)

/-- The state over which rules run. -/
structure State where
  cursor : Cursor
  depth : Nat
  furthest : Option Furthest
  journal : List Event

namespace State

/-- The state before a text is read. -/
def initial (text : List Char) : State := ⟨Cursor.ofText text, 0, none, []⟩

/-- Notes an event down. -/
def log (s : State) (e : Event) : State := { s with journal := e :: s.journal }

/-- The record of the furthest miss after one more miss at the cursor: a place
further on replaces the record, the same place adds to it, and a place before
it changes nothing. -/
def furthestAfter (s : State) (what : Expectation) : Furthest :=
  match s.furthest with
  | none => ⟨s.cursor, [what]⟩
  | some f =>
    -- the record is further on than this miss
    if f.cursor.position.offset > s.cursor.position.offset then f
    else if f.cursor.position.offset = s.cursor.position.offset then
      if what ∈ f.expected then f else { f with expected := f.expected ++ [what] }
    else ⟨s.cursor, [what]⟩

/-- Records that `what` was expected at the cursor. -/
def expect (s : State) (what : Expectation) : State :=
  { s with furthest := some (s.furthestAfter what) }.log
    (.missed s.cursor.position what)

end State

/-- Why no further alternative is tried. -/
inductive Stop where
  | error (e : Error)
  | outOfFuel

/-- How a rule ends. -/
inductive Verdict (α : Type) where
  | ok (value : α)
  | miss
  | halt (stop : Stop)

/-- The end of a rule, and the state it leaves. -/
structure Reply (α : Type) where
  verdict : Verdict α
  state : State

/-- A grammar rule. The first argument is the limit on nesting. -/
def Rule (α : Type) : Type := Option Nat → State → Reply α

namespace Rule

variable {α β : Type}

/-- The rule that reads nothing. -/
protected def pure (a : α) : Rule α := fun _ s => ⟨.ok a, s⟩

/-- One rule after another. -/
protected def bind (r : Rule α) (k : α → Rule β) : Rule β := fun limit s =>
  match r limit s with
  | ⟨.ok a, s'⟩ => k a limit s'
  | ⟨.miss, s'⟩ => ⟨.miss, s'⟩
  | ⟨.halt stop, s'⟩ => ⟨.halt stop, s'⟩

instance : Monad Rule where
  pure := Rule.pure
  bind := Rule.bind

/-! ## Ends -/

/-- A miss that records nothing. -/
def miss : Rule α := fun _ s => ⟨.miss, s⟩

/-- A miss that records what was expected here. -/
def fail (what : Expectation) : Rule α := fun _ s => ⟨.miss, s.expect what⟩

/-- A halt with an error. -/
def raise (e : Error) : Rule α := fun _ s => ⟨.halt (.error e), s.log (.raised e)⟩

/-- The rule of those to which no calls are left. -/
def exhausted : Rule α := fun _ s => ⟨.halt .outOfFuel, s⟩

/-! ## The cursor -/

/-- The cursor. -/
def cursor : Rule Cursor := fun _ s => ⟨.ok s.cursor, s⟩

/-- Moves the cursor. -/
def moveTo (c : Cursor) : Rule Unit := fun _ s => ⟨.ok (), { s with cursor := c }⟩

/-- The text after the cursor. -/
def rest : Rule (List Char) := fun _ s => ⟨.ok s.cursor.rest, s⟩

/-- The place of the cursor. -/
def position : Rule Position := fun _ s => ⟨.ok s.cursor.position, s⟩

/-- The character after the cursor. -/
def peek? : Rule (Option Char) := fun _ s => ⟨.ok s.cursor.peek?, s⟩

/-- Passes the next `n` characters. -/
def advance (n : Nat) : Rule Unit := fun _ s => ⟨.ok (), { s with cursor := s.cursor.skip n }⟩

/-- Notes an event down. -/
def log (e : Event) : Rule Unit := fun _ s => ⟨.ok (), s.log e⟩

/-! ## Alternatives -/

/-- Runs `r`, and gives the cursor back if it misses. -/
def attempt (r : Rule α) : Rule α := fun limit s =>
  match r limit s with
  | ⟨.miss, s'⟩ => ⟨.miss, { s' with cursor := s.cursor }⟩
  | reply => reply

/-- Runs `r`; a miss gives the cursor back and counts as reading nothing. -/
def optional (r : Rule α) : Rule (Option α) := fun limit s =>
  match r limit s with
  | ⟨.ok a, s'⟩ => ⟨.ok (some a), s'⟩
  | ⟨.miss, s'⟩ => ⟨.ok none, { s' with cursor := s.cursor }⟩
  | ⟨.halt stop, s'⟩ => ⟨.halt stop, s'⟩

/-- The first of some rules that does not miss, or else the last rule. -/
def firstOf (last : Rule α) : List (Rule α) → Rule α
  | [] => last
  | r :: rs => do
    match ← optional r with
    | some a => pure a
    | none => firstOf last rs

/-! ## Repetition -/

/-- Zero or more readings of `r`, up to a bound on their number. -/
def manyWithin (r : Rule α) : Nat → Rule (List α)
  | 0 => exhausted
  | bound + 1 => do
    match ← optional r with
    | some a => do
      let more ← manyWithin r bound
      pure (a :: more)
    | none => pure []

/-- One or more readings of `r`. Each passes a character, so the text after the
first one bounds the number of the others. -/
def many1 (r : Rule α) : Rule (List α) := do
  let first ← attempt r
  let cs ← rest
  let more ← manyWithin r (cs.length + 1)
  pure (first :: more)

/-! ## Nesting -/

/-- Runs `r` one level deeper. At the limit it is not run. -/
def nested (r : Rule α) : Rule α := fun limit s =>
  -- however `r` ends, the level is left again
  let deeper : Reply α :=
    let reply := r limit { s with depth := s.depth + 1 }
    ⟨reply.verdict, { reply.state with depth := reply.state.depth - 1 }⟩
  match limit with
  | none => deeper
  | some l => if s.depth ≥ l then raise (.depth s.cursor.position l) limit s else deeper

end Rule

end Michelson
