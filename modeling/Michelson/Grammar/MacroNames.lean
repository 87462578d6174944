import Michelson.Grammar.Knot
import Michelson.MacroName
import Michelson.Rule.Layout

/-!
# The grammar of macro names

A name is read letter by letter and has to be a whole word. A name that does not
fit misses without recording anything.
-/

namespace Michelson

namespace Grammar

open Rule

/-- Whether a text begins with the given letters. -/
def startsWith (letters : String) (cs : List Char) : Bool :=
  letters.toList.isPrefixOf cs

/-- Passes the given letters, or misses. -/
def letters (text : String) : Rule Unit := do
  let cs ← rest
  if startsWith text cs then advance text.length else miss

/-- The name must end here; the layout after it is passed. -/
def nameEnd : Rule Unit := do
  let cs ← rest
  if endsWord cs then layout else miss

/-- The first choice whose letters come next. -/
def choice {α : Type} (name : α → String) : List α → Rule α
  | [] => miss
  | a :: others => do
    let cs ← rest
    if startsWith (name a) cs then do
      advance (name a).length
      pure a
    else choice name others

/-- The letters of a comparison. -/
def comparison : Rule Comparison := choice Comparison.mnemonic Comparison.all

/-- Some letters, a comparison, and the end of the name. -/
def comparisonName (text : String) (name : Comparison → MacroName) : Rule MacroName := do
  letters text
  let c ← comparison
  nameEnd
  pure (name c)

/-- Some letters and the end of the name. -/
def plainName (text : String) (name : MacroName) : Rule MacroName := do
  letters text
  nameEnd
  pure name

/-- What follows `ASSERT_` in the names of assertions about an option or a
union. -/
def assertedSuffix : Fixed → String
  | .assertNone => "NONE"
  | .assertSome => "SOME"
  | .assertLeft => "LEFT"
  | .assertRight => "RIGHT"
  | .assert => ""
  | .fail => ""

/-- The assertions about an option or a union. -/
def assertedName : Rule MacroName := do
  letters "ASSERT_"
  let name ← choice assertedSuffix [.assertNone, .assertSome, .assertLeft, .assertRight]
  nameEnd
  pure (.fixed name)

/-- `D`, a letter two times or more, and `P`. The count is the depth; it is kept
modulo `2 ^ 32`. -/
def depthName (letter : Char) (name : UInt32 → MacroName) : Rule MacroName := do
  letters "D"
  let cs ← rest
  let count := (cs.takeWhile (· == letter)).length
  advance count
  -- all the letters are passed, also where the count is reduced
  let depth := UInt32.ofNat count
  if depth < 2 then miss
  else do
    letters "P"
    nameEnd
    pure (name depth)

/-- The left part of a pair: `A` for a leaf, or another pair. -/
def leftTree (g : Knot) : Rule PairTree := do
  match ← peek? with
  | some 'A' => do
    advance 1
    pure .bare
  | _ => g.pairTree

/-- The right part of a pair: `I` for a leaf, or another pair. -/
def rightTree (g : Knot) : Rule PairTree := do
  match ← peek? with
  | some 'I' => do
    advance 1
    pure .bare
  | _ => g.pairTree

/-- `P` and the two parts of a pair. -/
def pairTreeRule (g : Knot) : Rule PairTree :=
  -- at the limit this halts whatever the next letter is
  nested do
    letters "P"
    let l ← leftTree g
    let r ← rightTree g
    pure (.node l r)

/-- A pair tree after some letters, and `R`. -/
def treeName (g : Knot) (text : String) (name : PairTree → MacroName) : Rule MacroName := do
  letters text
  let tree ← g.pairTree
  letters "R"
  nameEnd
  pure (name tree)

/-- The steps that a run of letters spells. -/
def scanPath : List Char → List Side
  | [] => []
  | c :: cs =>
    match Side.ofLetter? c with
    | some side => side :: scanPath cs
    | none => []

/-- A path of at least `least` steps after some letters, and `R`. -/
def pathName (text : String) (least : Nat) (name : List Side → MacroName) :
    Rule MacroName := do
  letters text
  let cs ← rest
  let path := scanPath cs
  advance path.length
  if path.length < least then miss
  else do
    letters "R"
    nameEnd
    pure (name path)

/-- The readings of a macro name, in the order in which they are tried. -/
def macroNames (g : Knot) : List (Rule MacroName) :=
  [comparisonName "CMP" .compare,
    plainName "IF_SOME" .ifSome,
    -- an opening stands before those that it extends
    comparisonName "IFCMP" .ifCompare,
    comparisonName "IF" .ifCompared,
    plainName "FAIL" (.fixed .fail),
    comparisonName "ASSERT_CMP" .assertCompare,
    assertedName,
    comparisonName "ASSERT_" .assertCompared,
    plainName "ASSERT" (.fixed .assert),
    depthName 'I' .dipDeep,
    depthName 'U' .dupDeep,
    -- from here on every name that is left has met the limit on nesting
    treeName g "UN" .unpair,
    treeName g "" .pairUp,
    pathName "C" 2 .getPath,
    pathName "SET_C" 1 .setPath,
    pathName "MAP_C" 1 .mapPath]

end Grammar

end Michelson
