import Michelson.Code

/-!
# Well-formed trees

The trees that source text can denote. The types of the library rule out most
of the others; what is left are conditions on the text of notes, on slots that
are filled in order, on the shape of pair trees and on braces: a map in source
text has an entry, and a block that stands for a value has a step of its own.
-/

namespace Michelson

/-- Whether slots are filled from the left, without a gap. -/
def isFilledInOrder (present : List Bool) : Bool := (present.dropWhile id).all (!·)

/-- Whether some step of a block is no nested block. -/
def Block.hasOwnStep (b : Block) : Bool :=
  b.any fun o =>
    match o with
    | .seq _ => false
    | _ => true

/-- Whether the texts of the notes in a comparable type are those of notes. -/
def Comparable.isWellFormed (c : Comparable) : Bool := c.note.isWellFormed

/-- Whether the texts of the notes in a type are those of notes. -/
def Ty.isWellFormed : Ty → Bool
  | atom n _ => n.isWellFormed
  | option n f t => n.isWellFormed && f.isWellFormed && t.isWellFormed
  | wrapped n _ t => n.isWellFormed && t.isWellFormed
  | set n c => n.isWellFormed && c.isWellFormed
  | joint n _ lf rf l r =>
    n.isWellFormed && lf.isWellFormed && rf.isWellFormed && l.isWellFormed && r.isWellFormed
  | lambda n d c => n.isWellFormed && d.isWellFormed && c.isWellFormed
  | table n _ k v => n.isWellFormed && k.isWellFormed && v.isWellFormed

namespace PairTree

/-- Whether the texts of the notes at the leaves are those of notes. -/
def hasWellFormedNotes (t : PairTree) : Bool :=
  t.leaves.all fun leaf => leaf.1.isWellFormed && leaf.2.isWellFormed

/-- Whether a tree can come from a macro that pairs up: it has three leaves or
more and no variable notes, and the field notes are on the first leaves. -/
def isWellFormedForPairing (t : PairTree) : Bool :=
  t.hasWellFormedNotes && 3 ≤ t.leafCount && t.leaves.all (fun leaf => !leaf.1.isPresent) &&
    isFilledInOrder (t.leaves.map fun leaf => leaf.2.isPresent)

/-- Whether a tree can come from a macro that takes a pair apart: it is no leaf,
and the first leaves have both notes while the others have none. -/
def isWellFormedForUnpairing (t : PairTree) : Bool :=
  t.hasWellFormedNotes && 2 ≤ t.leafCount &&
    t.leaves.all (fun leaf => leaf.1.isPresent == leaf.2.isPresent) &&
    isFilledInOrder (t.leaves.map fun leaf => leaf.2.isPresent)

end PairTree

mutual

/-- Whether a value is well formed. -/
def Data.isWellFormed : Data → Bool
  | .int _ => true
  | .string _ => true
  | .bytes _ => true
  | .constant _ => true
  | .wrapped _ d => d.isWellFormed
  | .pair l r => l.isWellFormed && r.isWellFormed
  | .seq items => areWellFormedItems items
  | .map entries => !entries.isEmpty && areWellFormedEntries entries
  | .code block => Block.hasOwnStep block && areWellFormedSteps block

/-- Whether the items of a sequence are well formed. -/
def areWellFormedItems : List Data → Bool
  | [] => true
  | d :: ds => d.isWellFormed && areWellFormedItems ds

/-- Whether an entry of a map is well formed. -/
def Entry.isWellFormed : Entry → Bool
  | .mk k v => k.isWellFormed && v.isWellFormed

/-- Whether the entries of a map are well formed. -/
def areWellFormedEntries : List Entry → Bool
  | [] => true
  | e :: es => e.isWellFormed && areWellFormedEntries es

/-- Whether a step of a block is well formed. -/
def Op.isWellFormed : Op → Bool
  | .prim i => i.isWellFormed
  | .mac m => m.isWellFormed
  | .seq block => areWellFormedSteps block

/-- Whether the steps of a block are well formed. -/
def areWellFormedSteps : List Op → Bool
  | [] => true
  | o :: os => o.isWellFormed && areWellFormedSteps os

/-- Whether an instruction is well formed. Of two slots of one kind the first is
filled first. -/
def Instr.isWellFormed : Instr → Bool
  | .plain _ => true
  | .noted _ v => v.isWellFormed
  | .typed _ v t => v.isWellFormed && t.isWellFormed
  | .branch _ yes no => areWellFormedSteps yes && areWellFormedSteps no
  | .enclosing _ body => areWellFormedSteps body
  | .traversal _ v body => v.isWellFormed && areWellFormedSteps body
  | .project _ v f => v.isWellFormed && f.isWellFormed
  | .inject _ t v lf rf ty =>
    t.isWellFormed && v.isWellFormed && lf.isWellFormed && rf.isWellFormed &&
      isFilledInOrder [lf.isPresent, rf.isPresent] && ty.isWellFormed
  | .push v t d => v.isWellFormed && t.isWellFormed && d.isWellFormed
  | .some t v f => t.isWellFormed && v.isWellFormed && f.isWellFormed
  | .none t v f ty => t.isWellFormed && v.isWellFormed && f.isWellFormed && ty.isWellFormed
  | .unit t v => t.isWellFormed && v.isWellFormed
  | .pair t v lf rf =>
    t.isWellFormed && v.isWellFormed && lf.isWellFormed && rf.isWellFormed &&
      isFilledInOrder [lf.isPresent, rf.isPresent]
  | .nil t v ty => t.isWellFormed && v.isWellFormed && ty.isWellFormed
  | .emptySet t v c => t.isWellFormed && v.isWellFormed && c.isWellFormed
  | .emptyMap t v c ty =>
    t.isWellFormed && v.isWellFormed && c.isWellFormed && ty.isWellFormed
  | .lambda v d c body =>
    v.isWellFormed && d.isWellFormed && c.isWellFormed && areWellFormedSteps body
  | .createAccount v w =>
    v.isWellFormed && w.isWellFormed && isFilledInOrder [v.isPresent, w.isPresent]
  | .createContract v w =>
    v.isWellFormed && w.isWellFormed && isFilledInOrder [v.isPresent, w.isPresent]
  | .originate v w parameter storage code =>
    v.isWellFormed && w.isWellFormed && isFilledInOrder [v.isPresent, w.isPresent] &&
      parameter.isWellFormed && storage.isWellFormed && areWellFormedSteps code

/-- Whether a macro is well formed. -/
def Macro.isWellFormed : Macro → Bool
  | .fixed _ => true
  | .compare _ v => v.isWellFormed
  | .ifCompared _ yes no => areWellFormedSteps yes && areWellFormedSteps no
  | .ifCompare _ v yes no =>
    v.isWellFormed && areWellFormedSteps yes && areWellFormedSteps no
  | .ifSome yes no => areWellFormedSteps yes && areWellFormedSteps no
  | .assertCompared _ => true
  | .assertCompare _ => true
  | .dipDeep depth body => 2 ≤ depth && areWellFormedSteps body
  | .dupDeep depth v => 2 ≤ depth && v.isWellFormed
  | .pairUp shape t v => shape.isWellFormedForPairing && t.isWellFormed && v.isWellFormed
  | .unpair shape => shape.isWellFormedForUnpairing
  | .getPath path v f => 2 ≤ path.length && v.isWellFormed && f.isWellFormed
  | .setPath path v f => 1 ≤ path.length && v.isWellFormed && f.isWellFormed
  | .mapPath path v f body =>
    1 ≤ path.length && v.isWellFormed && f.isWellFormed && areWellFormedSteps body

end

/-- Whether a block is well formed. -/
def Block.isWellFormed (b : Block) : Bool := areWellFormedSteps b

/-- Whether a contract is well formed. -/
def Contract.isWellFormed (c : Contract) : Bool :=
  c.parameter.isWellFormed && c.storage.isWellFormed && Block.isWellFormed c.code

end Michelson
