import Michelson.Code

/-!
# Nesting

How deep a tree nests. A type, a comparable type, a value, a block and a step
each count one on top of the deepest of their parts; the pair tree in the name
of a macro counts its height. Notes and parentheses count nothing.

The name of a macro may spell a path of projections in place of a pair tree.
Such a name has no parts that nest; how many levels it is given is a parameter
of the count, and the nesting gives it none.
-/

namespace Michelson

/-- The nesting of a type. A comparable part counts one. -/
def Ty.nesting : Ty → Nat
  | atom _ _ => 1
  | option _ _ t => t.nesting + 1
  | wrapped _ _ t => t.nesting + 1
  | set _ _ => 2
  | joint _ _ _ _ l r => max l.nesting r.nesting + 1
  | lambda _ d c => max d.nesting c.nesting + 1
  | table _ _ _ v => max 1 v.nesting + 1

section Levels

variable (path : Nat)

mutual

/-- The levels of a value. -/
def Data.levels : Data → Nat
  | .int _ => 1
  | .string _ => 1
  | .bytes _ => 1
  | .constant _ => 1
  | .wrapped _ d => d.levels + 1
  | .pair l r => max l.levels r.levels + 1
  | .seq items => itemLevels items + 1
  | .map entries => entryLevels entries + 1
  | .code block => stepLevels block + 1 + 1

/-- The most levels of the items of a sequence. -/
def itemLevels : List Data → Nat
  | [] => 0
  | d :: ds => max d.levels (itemLevels ds)

/-- The most levels of the parts of an entry of a map. -/
def Entry.levels : Entry → Nat
  | .mk k v => max k.levels v.levels

/-- The most levels of the parts of the entries of a map. -/
def entryLevels : List Entry → Nat
  | [] => 0
  | e :: es => max e.levels (entryLevels es)

/-- The levels of a step of a block. -/
def Op.levels : Op → Nat
  | .prim i => i.levels + 1
  | .mac m => m.levels + 1
  | .seq block => stepLevels block + 1 + 1

/-- The most levels of the steps of a block. -/
def stepLevels : List Op → Nat
  | [] => 0
  | o :: os => max o.levels (stepLevels os)

/-- The most levels of the parts of an instruction. -/
def Instr.levels : Instr → Nat
  | .plain _ => 0
  | .noted _ _ => 0
  | .typed _ _ t => t.nesting
  | .branch _ yes no => max (stepLevels yes + 1) (stepLevels no + 1)
  | .enclosing _ body => stepLevels body + 1
  | .traversal _ _ body => stepLevels body + 1
  | .project _ _ _ => 0
  | .inject _ _ _ _ _ t => t.nesting
  | .push _ t d => max t.nesting d.levels
  | .some _ _ _ => 0
  | .none _ _ _ t => t.nesting
  | .unit _ _ => 0
  | .pair _ _ _ _ => 0
  | .nil _ _ t => t.nesting
  | .emptySet _ _ _ => 1
  | .emptyMap _ _ _ t => max 1 t.nesting
  | .lambda _ d c body => max (max d.nesting c.nesting) (stepLevels body + 1)
  | .createAccount _ _ => 0
  | .createContract _ _ => 0
  | .originate _ _ parameter storage code =>
    max (max parameter.nesting storage.nesting) (stepLevels code + 1)

/-- The most levels of the parts of a macro, its name included. -/
def Macro.levels : Macro → Nat
  | .fixed _ => 0
  | .compare _ _ => 0
  | .ifCompared _ yes no => max (stepLevels yes + 1) (stepLevels no + 1)
  | .ifCompare _ _ yes no => max (stepLevels yes + 1) (stepLevels no + 1)
  | .ifSome yes no => max (stepLevels yes + 1) (stepLevels no + 1)
  | .assertCompared _ => 0
  | .assertCompare _ => 0
  | .dipDeep _ body => stepLevels body + 1
  | .dupDeep _ _ => 0
  | .pairUp shape _ _ => shape.height
  | .unpair shape => shape.height
  | .getPath _ _ _ => path
  | .setPath _ _ _ => path
  | .mapPath _ _ _ body => max path (stepLevels body + 1)

end

/-- The levels of a block. -/
def Block.levels (b : Block) : Nat := stepLevels path b + 1

/-- The levels of a contract: those of its deepest section. -/
def Contract.levels (c : Contract) : Nat :=
  max (max c.parameter.nesting c.storage.nesting) (Block.levels path c.code)

end Levels

/-- The nesting of a block. -/
def Block.nesting (b : Block) : Nat := b.levels 0

/-- The nesting of a contract: that of its deepest section. -/
def Contract.nesting (c : Contract) : Nat := c.levels 0

end Michelson
