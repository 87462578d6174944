import Michelson.Mnemonic
import Michelson.PairTree
import Michelson.Ty

/-!
# Values and code

Literal values and code refer to each other: code pushes values, and a value
may be a block of code. Macros are kept as they are written.
-/

namespace Michelson

/-- Literal values without parts. -/
inductive Constant where
  | unit
  | true
  | false
  | none
deriving DecidableEq, Repr

namespace Constant

/-- Every constant. -/
def all : List Constant := [unit, true, false, none]

/-- The word in source text, which is also the name in encoded trees. -/
def keyword : Constant → String
  | unit => "Unit"
  | true => "True"
  | false => "False"
  | none => "None"

end Constant

/-- Literal values with one part. -/
inductive Wrapping where
  | some
  | left
  | right
deriving DecidableEq, Repr

namespace Wrapping

/-- Every wrapping. -/
def all : List Wrapping := [some, left, right]

/-- The word in source text, which is also the name in encoded trees. -/
def keyword : Wrapping → String
  | some => "Some"
  | left => "Left"
  | right => "Right"

end Wrapping

/-- Macros without parts. -/
inductive Fixed where
  | fail
  | assert
  | assertNone
  | assertSome
  | assertLeft
  | assertRight
deriving DecidableEq, Repr

namespace Fixed

/-- Every macro without parts. -/
def all : List Fixed := [fail, assert, assertNone, assertSome, assertLeft, assertRight]

/-- The name in source text. -/
def mnemonic : Fixed → String
  | fail => "FAIL"
  | assert => "ASSERT"
  | assertNone => "ASSERT_NONE"
  | assertSome => "ASSERT_SOME"
  | assertLeft => "ASSERT_LEFT"
  | assertRight => "ASSERT_RIGHT"

/-- The name in encoded trees. -/
def tag : Fixed → String
  | fail => "Fail"
  | assert => "Assert"
  | assertNone => "AssertNone"
  | assertSome => "AssertSome"
  | assertLeft => "AssertLeft"
  | assertRight => "AssertRight"

end Fixed

mutual

/-- A literal value. Sequences and maps keep the order of their source, and the
keys of a map need not be distinct. -/
inductive Data where
  | int (value : Int)
  | string (text : String)
  | bytes (bytes : List UInt8)
  | constant (constant : Constant)
  | wrapped (wrapping : Wrapping) (value : Data)
  | pair (left right : Data)
  | seq (items : List Data)
  | map (entries : List Entry)
  | code (block : List Op)

/-- One entry of a map. -/
inductive Entry where
  | mk (key value : Data)

/-- One step of a block of code: an instruction, a macro or a nested block. -/
inductive Op where
  | prim (instr : Instr)
  | mac (mac : Macro)
  | seq (block : List Op)

/-- An instruction with its notes and arguments. -/
inductive Instr where
  | plain (name : Plain)
  | noted (name : Noted) (var : Note .var)
  | typed (name : Typed) (var : Note .var) (type : Ty)
  | branch (name : Branch) (yes no : List Op)
  | enclosing (name : Enclosing) (body : List Op)
  | traversal (name : Traversal) (var : Note .var) (body : List Op)
  | project (side : Side) (var : Note .var) (field : Note .field)
  | inject (side : Side) (type : Note .type) (var : Note .var)
      (leftField rightField : Note .field) (other : Ty)
  | push (var : Note .var) (type : Ty) (value : Data)
  | some (type : Note .type) (var : Note .var) (field : Note .field)
  | none (type : Note .type) (var : Note .var) (field : Note .field) (element : Ty)
  | unit (type : Note .type) (var : Note .var)
  | pair (type : Note .type) (var : Note .var) (leftField rightField : Note .field)
  | nil (type : Note .type) (var : Note .var) (element : Ty)
  | emptySet (type : Note .type) (var : Note .var) (element : Comparable)
  | emptyMap (type : Note .type) (var : Note .var) (key : Comparable) (value : Ty)
  | lambda (var : Note .var) (domain codomain : Ty) (body : List Op)
  | createAccount (operation address : Note .var)
  | createContract (operation address : Note .var)
  | originate (operation address : Note .var) (parameter storage : Ty) (code : List Op)

/-- A macro, kept unexpanded. -/
inductive Macro where
  | fixed (name : Fixed)
  | compare (comparison : Comparison) (var : Note .var)
  | ifCompared (comparison : Comparison) (yes no : List Op)
  | ifCompare (comparison : Comparison) (var : Note .var) (yes no : List Op)
  | ifSome (yes no : List Op)
  | assertCompared (comparison : Comparison)
  | assertCompare (comparison : Comparison)
  | dipDeep (depth : UInt32) (body : List Op)
  | dupDeep (depth : UInt32) (var : Note .var)
  | pairUp (shape : PairTree) (type : Note .type) (var : Note .var)
  | unpair (shape : PairTree)
  | getPath (path : List Side) (var : Note .var) (field : Note .field)
  | setPath (path : List Side) (var : Note .var) (field : Note .field)
  | mapPath (path : List Side) (var : Note .var) (field : Note .field) (body : List Op)

end

/-- A block of code. -/
abbrev Block := List Op

/-- A contract: the type of its parameter, the type of its storage and its
code. -/
structure Contract where
  parameter : Ty
  storage : Ty
  code : Block

namespace Instr

/-- What the mnemonic of an instruction says: which constructor is meant. -/
inductive Head where
  | plain (name : Plain)
  | noted (name : Noted)
  | typed (name : Typed)
  | branch (name : Branch)
  | enclosing (name : Enclosing)
  | traversal (name : Traversal)
  | project (side : Side)
  | inject (side : Side)
  | push
  | some
  | none
  | unit
  | pair
  | nil
  | emptySet
  | emptyMap
  | lambda
  | createAccount
  | createContract
deriving DecidableEq, Repr

namespace Head

/-- Every head. -/
def all : List Head :=
  Plain.all.map plain ++ Noted.all.map noted ++ Typed.all.map typed ++ Branch.all.map branch ++
    Enclosing.all.map enclosing ++ Traversal.all.map traversal ++ Side.all.map project ++
    Side.all.map inject ++
    [push, some, none, unit, pair, nil, emptySet, emptyMap, lambda, createAccount,
      createContract]

/-- The word in source text. -/
def mnemonic : Head → String
  | plain name => name.mnemonic
  | noted name => name.mnemonic
  | typed name => name.mnemonic
  | branch name => name.mnemonic
  | enclosing name => name.mnemonic
  | traversal name => name.mnemonic
  | project side => side.projection
  | inject side => side.injection
  | push => "PUSH"
  | some => "SOME"
  | none => "NONE"
  | unit => "UNIT"
  | pair => "PAIR"
  | nil => "NIL"
  | emptySet => "EMPTY_SET"
  | emptyMap => "EMPTY_MAP"
  | lambda => "LAMBDA"
  | createAccount => "CREATE_ACCOUNT"
  | createContract => "CREATE_CONTRACT"

/-- The head that a word names. -/
def ofMnemonic? (word : String) : Option Head :=
  all.find? (·.mnemonic == word)

end Head

end Instr

namespace Data

/-- What the keyword of a literal says: which constructor is meant. -/
inductive Head where
  | constant (constant : Constant)
  | wrapped (wrapping : Wrapping)
  | pair
deriving DecidableEq, Repr

namespace Head

/-- Every head. -/
def all : List Head :=
  Constant.all.map constant ++ Wrapping.all.map wrapped ++ [pair]

/-- The word in source text. -/
def keyword : Head → String
  | constant c => c.keyword
  | wrapped w => w.keyword
  | pair => "Pair"

/-- The head that a word names. -/
def ofKeyword? (word : String) : Option Head :=
  all.find? (·.keyword == word)

end Head

end Data

end Michelson
