import Michelson.Code

/-!
# The names of macros

The name of a macro says more than which macro it is: it may spell a
comparison, a depth, a pair tree or a path of projections.
-/

namespace Michelson

/-- What the name of a macro says. -/
inductive MacroName where
  | fixed (name : Fixed)
  | compare (comparison : Comparison)
  | ifCompared (comparison : Comparison)
  | ifCompare (comparison : Comparison)
  | ifSome
  | assertCompared (comparison : Comparison)
  | assertCompare (comparison : Comparison)
  | dipDeep (depth : UInt32)
  | dupDeep (depth : UInt32)
  | pairUp (shape : PairTree)
  | unpair (shape : PairTree)
  | getPath (path : List Side)
  | setPath (path : List Side)
  | mapPath (path : List Side)
deriving DecidableEq, Repr

namespace MacroName

/-- The letters of a depth: `D`, a letter as often as the depth says, and `P`. -/
def depthLetters (letter : Char) (depth : UInt32) : List Char :=
  'D' :: (List.replicate depth.toNat letter ++ ['P'])

/-- The letters of a path, and `R`. -/
def pathLetters (path : List Side) : List Char := path.map Side.letter ++ ['R']

/-- The letters of a name. The letters of a pair tree are those of a tree on the
right, which for a pair are the same as on the left. -/
def letters : MacroName → List Char
  | fixed name => name.mnemonic.toList
  | compare c => ['C', 'M', 'P'] ++ c.mnemonic.toList
  | ifCompared c => ['I', 'F'] ++ c.mnemonic.toList
  | ifCompare c => ['I', 'F', 'C', 'M', 'P'] ++ c.mnemonic.toList
  | ifSome => ['I', 'F', '_', 'S', 'O', 'M', 'E']
  | assertCompared c => ['A', 'S', 'S', 'E', 'R', 'T', '_'] ++ c.mnemonic.toList
  | assertCompare c => ['A', 'S', 'S', 'E', 'R', 'T', '_', 'C', 'M', 'P'] ++ c.mnemonic.toList
  | dipDeep depth => depthLetters 'I' depth
  | dupDeep depth => depthLetters 'U' depth
  | pairUp shape => shape.rightName ++ ['R']
  | unpair shape => ['U', 'N'] ++ (shape.rightName ++ ['R'])
  | getPath path => 'C' :: pathLetters path
  | setPath path => ['S', 'E', 'T', '_', 'C'] ++ pathLetters path
  | mapPath path => ['M', 'A', 'P', '_', 'C'] ++ pathLetters path

end MacroName

/-- The name of a macro. The notes of a pair tree are no part of it. -/
def Macro.name : Macro → MacroName
  | fixed name => .fixed name
  | compare c _ => .compare c
  | ifCompared c _ _ => .ifCompared c
  | ifCompare c _ _ _ => .ifCompare c
  | ifSome _ _ => .ifSome
  | assertCompared c => .assertCompared c
  | assertCompare c => .assertCompare c
  | dipDeep depth _ => .dipDeep depth
  | dupDeep depth _ => .dupDeep depth
  | pairUp shape _ _ => .pairUp shape.stripped
  | unpair shape => .unpair shape.stripped
  | getPath path _ _ => .getPath path
  | setPath path _ _ => .setPath path
  | mapPath path _ _ _ => .mapPath path

end Michelson
