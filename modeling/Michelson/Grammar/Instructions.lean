import Michelson.Grammar.MacroNames
import Michelson.Grammar.Notes

/-!
# The grammar of code

A block is a braced list of steps. A step is an instruction, a macro or a
nested block, tried in this order. The mnemonic of an instruction, or the name
of a macro, fixes the notes and arguments that follow it.
-/

namespace Michelson.Grammar

open Rule

/-- The values of the three sections of a contract, as far as they are known. -/
structure Sections where
  parameter? : Option Ty := none
  storage? : Option Ty := none
  code? : Option Block := none

/-- A section that holds a type. The semicolon after it is required. -/
def typeSection (g : Knot) (part : Part) : Rule Ty := do
  keyword part.keyword
  let p ← position
  log (.part part p)
  let t ← g.plainType
  symbol ';'
  pure t

/-- The section that holds the code. The semicolon after it may be left out. -/
def codeSection (g : Knot) : Rule Block := do
  keyword Part.code.keyword
  let p ← position
  log (.part .code p)
  let block ← g.block
  let _ ← optional (symbol ';')
  pure block

/-- A value that has to be there. -/
def require {α : Type} (part : Part) : Option α → Rule α
  | some a => pure a
  | none => fail (.token part.keyword)

/-- The three sections of a contract, in any order. -/
def contractRule (g : Knot) : Rule Contract := do
  let sections ← group
    [slot (typeSection g .parameter) fun t (s : Sections) => { s with parameter? := some t },
      slot (typeSection g .storage) fun t s => { s with storage? := some t },
      slot (codeSection g) fun b s => { s with code? := some b }]
    {}
  let parameter ← require .parameter sections.parameter?
  let storage ← require .storage sections.storage?
  let code ← require .code sections.code?
  pure ⟨parameter, storage, code⟩

/-- Two blocks. -/
def twoBlocks (g : Knot) : Rule (Block × Block) := do
  let yes ← g.block
  let no ← g.block
  pure (yes, no)

/-- A contract in braces, if there is one. -/
def bracedContract (g : Knot) : Rule (Option Contract) :=
  optional do
    symbol '{'
    let c ← contractRule g
    symbol '}'
    pure c

/-- The notes and arguments of an instruction. -/
def arguments (g : Knot) : Instr.Head → Rule Instr
  | .plain name => pure (.plain name)
  | .noted name => do
    let v ← noteSlot .var
    pure (.noted name v)
  | .typed name => do
    let v ← noteSlot .var
    let t ← g.plainType
    pure (.typed name v t)
  | .branch name => do
    let (yes, no) ← twoBlocks g
    pure (.branch name yes no)
  | .enclosing name => do
    let body ← g.block
    pure (.enclosing name body)
  | .traversal name => do
    let v ← noteSlot .var
    let body ← g.block
    pure (.traversal name v body)
  | .project side => do
    let n ← varFieldNotes
    pure (.project side n.var n.field)
  | .inject side => do
    let n ← typeVarFieldsNotes
    let t ← g.plainType
    pure (.inject side n.type n.var n.field n.otherField t)
  | .push => do
    let v ← noteSlot .var
    let t ← g.plainType
    let d ← g.value
    pure (.push v t d)
  | .some => do
    let n ← typeVarFieldNotes
    pure (.some n.type n.var n.field)
  | .none => do
    let n ← typeVarFieldNotes
    let t ← g.plainType
    pure (.none n.type n.var n.field t)
  | .unit => do
    let n ← typeVarNotes
    pure (.unit n.type n.var)
  | .pair => do
    let n ← typeVarFieldsNotes
    pure (.pair n.type n.var n.field n.otherField)
  | .nil => do
    let n ← typeVarNotes
    let t ← g.plainType
    pure (.nil n.type n.var t)
  | .emptySet => do
    let n ← typeVarNotes
    let c ← g.comparable
    pure (.emptySet n.type n.var c)
  | .emptyMap => do
    let n ← typeVarNotes
    let c ← g.comparable
    let t ← g.plainType
    pure (.emptyMap n.type n.var c t)
  | .lambda => do
    let v ← noteSlot .var
    let d ← g.plainType
    let c ← g.plainType
    let body ← g.block
    pure (.lambda v d c body)
  | .createAccount => do
    let v ← noteSlot .var
    let w ← noteSlot .var
    pure (.createAccount v w)
  | .createContract => do
    let v ← noteSlot .var
    let w ← noteSlot .var
    match ← bracedContract g with
    | some c => pure (.originate v w c.parameter c.storage c.code)
    | none => pure (.createContract v w)

/-- An instruction. The word and the layout after it are passed before the word
is looked up. -/
def instruction (g : Knot) : Rule Instr :=
  attempt do
    match ← peekWord? with
    | none => fail .instruction
    | some w => do
      let start ← cursor
      token w.length
      -- a comment that is never closed has halted the rule, whatever the word is
      match Instr.Head.ofMnemonic? (String.ofList w) with
      | some head => arguments g head
      | none => do
        moveTo start
        fail .instruction

/-- The notes of a macro that pairs up: a type note, a variable note and one run
of field notes. -/
structure PairNotes where
  type : Note .type := .absent
  var : Note .var := .absent
  fields : List (Note .field) := []

/-- The notes of a macro that takes a pair apart: one run of variable notes and
one run of field notes. -/
structure LeafNotes where
  vars : List (Note .var) := []
  fields : List (Note .field) := []

/-- The notes and arguments of a macro. -/
def macroArguments (g : Knot) : MacroName → Rule Macro
  | .fixed name => pure (.fixed name)
  | .compare c => do
    let v ← noteSlot .var
    pure (.compare c v)
  | .ifCompared c => do
    let (yes, no) ← twoBlocks g
    pure (.ifCompared c yes no)
  | .ifCompare c => do
    let v ← noteSlot .var
    let (yes, no) ← twoBlocks g
    pure (.ifCompare c v yes no)
  | .ifSome => do
    let (yes, no) ← twoBlocks g
    pure (.ifSome yes no)
  | .assertCompared c => pure (.assertCompared c)
  | .assertCompare c => pure (.assertCompare c)
  | .dipDeep depth => do
    let body ← g.block
    pure (.dipDeep depth body)
  | .dupDeep depth => do
    let v ← noteSlot .var
    pure (.dupDeep depth v)
  | .pairUp shape => do
    let n ← group
      [slot (note .type) fun t (n : PairNotes) => { n with type := t },
        slot (note .var) fun v n => { n with var := v },
        slot (many1 (note .field)) fun fs n => { n with fields := fs }]
      {}
    pure (.pairUp (shape.withLeafNotes (n.fields.map fun f => (.absent, f))) n.type n.var)
  | .unpair shape => do
    let n ← group
      [slot (many1 (note .var)) fun vs (n : LeafNotes) => { n with vars := vs },
        slot (many1 (note .field)) fun fs n => { n with fields := fs }]
      {}
    pure (.unpair (shape.withLeafNotes (n.vars.zip n.fields)))
  | .getPath path => do
    let n ← varFieldNotes
    pure (.getPath path n.var n.field)
  | .setPath path => do
    let n ← varFieldNotes
    pure (.setPath path n.var n.field)
  | .mapPath path => do
    let n ← varFieldNotes
    let body ← g.block
    pure (.mapPath path n.var n.field body)

/-- A macro by one reading of its name. -/
def macroBy (g : Knot) (name : Rule MacroName) : Rule Macro := do
  let n ← name
  macroArguments g n

/-- A macro. -/
def macroRule (g : Knot) : Rule Macro := do
  let start ← position
  let m ← firstOf (fail .macroName) ((macroNames g).map (macroBy g))
  log (.macroRead start m)
  pure m

/-- A nested block as a step. -/
def nestedBlock (g : Knot) : Rule Op := do
  let block ← g.block
  pure (.seq block)

/-- An instruction as a step. -/
def instructionStep (g : Knot) : Rule Op := do
  let i ← instruction g
  pure (.prim i)

/-- A macro as a step. -/
def macroStep (g : Knot) : Rule Op := do
  let m ← macroRule g
  pure (.mac m)

/-- One step of a block. -/
def step (g : Knot) : Rule Op :=
  nested (firstOf (nestedBlock g) [instructionStep g, macroStep g])

/-- A block. -/
def blockRule (g : Knot) : Rule Block :=
  nested do
    let p ← position
    log (.block p)
    braced (step g)

end Michelson.Grammar
