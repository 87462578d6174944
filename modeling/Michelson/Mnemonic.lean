import Michelson.Note

/-!
# Mnemonics

The instructions fall into families with the same parts. Each family is an
enumeration; a member has the mnemonic that source text uses and the tag that
encoded trees use.
-/

namespace Michelson

/-- Instructions without notes and without arguments. -/
inductive Plain where
  | drop
  | swap
  | update
  | failwith
  | isNat
  | neg
  | mod
  | setDelegate
deriving DecidableEq, Repr

namespace Plain

/-- Every member of the family. -/
def all : List Plain :=
  [drop, swap, update, failwith, isNat, neg, mod, setDelegate]

/-- The word in source text. -/
def mnemonic : Plain → String
  | drop => "DROP"
  | swap => "SWAP"
  | update => "UPDATE"
  | failwith => "FAILWITH"
  | isNat => "ISNAT"
  | neg => "NEG"
  | mod => "MOD"
  | setDelegate => "SET_DELEGATE"

/-- The name in encoded trees. -/
def tag : Plain → String
  | drop => "Drop"
  | swap => "Swap"
  | update => "Update"
  | failwith => "Failwith"
  | isNat => "IsNat"
  | neg => "Neg"
  | mod => "Mod"
  | setDelegate => "SetDelegate"

end Plain

/-- Instructions with one variable note and without arguments. -/
inductive Noted where
  | dup
  | cons
  | size
  | mem
  | get
  | exec
  | rename
  | pack
  | concat
  | slice
  | add
  | sub
  | mul
  | ediv
  | abs
  | lsl
  | lsr
  | or
  | and
  | xor
  | not
  | compare
  | eq
  | neq
  | lt
  | gt
  | le
  | ge
  | int
  | self
  | transferTokens
  | implicitAccount
  | now
  | amount
  | balance
  | checkSignature
  | sha256
  | sha512
  | blake2b
  | hashKey
  | stepsToQuota
  | source
  | sender
  | address
deriving DecidableEq, Repr

namespace Noted

/-- Every member of the family. -/
def all : List Noted :=
  [dup, cons, size, mem, get, exec, rename, pack, concat, slice, add, sub, mul, ediv, abs,
    lsl, lsr, or, and, xor, not, compare, eq, neq, lt, gt, le, ge, int, self, transferTokens,
    implicitAccount, now, amount, balance, checkSignature, sha256, sha512, blake2b, hashKey,
    stepsToQuota, source, sender, address]

/-- The word in source text. -/
def mnemonic : Noted → String
  | dup => "DUP"
  | cons => "CONS"
  | size => "SIZE"
  | mem => "MEM"
  | get => "GET"
  | exec => "EXEC"
  | rename => "RENAME"
  | pack => "PACK"
  | concat => "CONCAT"
  | slice => "SLICE"
  | add => "ADD"
  | sub => "SUB"
  | mul => "MUL"
  | ediv => "EDIV"
  | abs => "ABS"
  | lsl => "LSL"
  | lsr => "LSR"
  | or => "OR"
  | and => "AND"
  | xor => "XOR"
  | not => "NOT"
  | compare => "COMPARE"
  | eq => "EQ"
  | neq => "NEQ"
  | lt => "LT"
  | gt => "GT"
  | le => "LE"
  | ge => "GE"
  | int => "INT"
  | self => "SELF"
  | transferTokens => "TRANSFER_TOKENS"
  | implicitAccount => "IMPLICIT_ACCOUNT"
  | now => "NOW"
  | amount => "AMOUNT"
  | balance => "BALANCE"
  | checkSignature => "CHECK_SIGNATURE"
  | sha256 => "SHA256"
  | sha512 => "SHA512"
  | blake2b => "BLAKE2B"
  | hashKey => "HASH_KEY"
  | stepsToQuota => "STEPS_TO_QUOTA"
  | source => "SOURCE"
  | sender => "SENDER"
  | address => "ADDRESS"

/-- The name in encoded trees. -/
def tag : Noted → String
  | dup => "Dup"
  | cons => "Cons"
  | size => "Size"
  | mem => "Mem"
  | get => "Get"
  | exec => "Exec"
  | rename => "Rename"
  | pack => "Pack"
  | concat => "Concat"
  | slice => "Slice"
  | add => "Add"
  | sub => "Sub"
  | mul => "Mul"
  | ediv => "Ediv"
  | abs => "Abs"
  | lsl => "Lsl"
  | lsr => "Lsr"
  | or => "Or"
  | and => "And"
  | xor => "Xor"
  | not => "Not"
  | compare => "Compare"
  | eq => "Eq"
  | neq => "Neq"
  | lt => "Lt"
  | gt => "Gt"
  | le => "Le"
  | ge => "Ge"
  | int => "Int"
  | self => "SelfContract"
  | transferTokens => "TransferTokens"
  | implicitAccount => "ImplicitAccount"
  | now => "Now"
  | amount => "Amount"
  | balance => "Balance"
  | checkSignature => "CheckSignature"
  | sha256 => "Sha256"
  | sha512 => "Sha512"
  | blake2b => "Blake2b"
  | hashKey => "HashKey"
  | stepsToQuota => "StepsToQuota"
  | source => "Source"
  | sender => "Sender"
  | address => "Address"

end Noted

/-- Instructions with a variable note and a type. -/
inductive Typed where
  | cast
  | unpack
  | contract
deriving DecidableEq, Repr

namespace Typed

/-- Every member of the family. -/
def all : List Typed := [cast, unpack, contract]

/-- The word in source text. -/
def mnemonic : Typed → String
  | cast => "CAST"
  | unpack => "UNPACK"
  | contract => "CONTRACT"

/-- The name in encoded trees. -/
def tag : Typed → String
  | cast => "Cast"
  | unpack => "Unpack"
  | contract => "Contract"

end Typed

/-- Instructions with two blocks, of which one is run. -/
inductive Branch where
  | ifNone
  | ifLeft
  | ifRight
  | ifCons
  | ifTrue
deriving DecidableEq, Repr

namespace Branch

/-- Every member of the family. -/
def all : List Branch := [ifNone, ifLeft, ifRight, ifCons, ifTrue]

/-- The word in source text. -/
def mnemonic : Branch → String
  | ifNone => "IF_NONE"
  | ifLeft => "IF_LEFT"
  | ifRight => "IF_RIGHT"
  | ifCons => "IF_CONS"
  | ifTrue => "IF"

/-- The name in encoded trees. -/
def tag : Branch → String
  | ifNone => "IfNone"
  | ifLeft => "IfLeft"
  | ifRight => "IfRight"
  | ifCons => "IfCons"
  | ifTrue => "If"

end Branch

/-- Instructions with one block and without notes. -/
inductive Enclosing where
  | loop
  | loopLeft
  | dip
deriving DecidableEq, Repr

namespace Enclosing

/-- Every member of the family. -/
def all : List Enclosing := [loop, loopLeft, dip]

/-- The word in source text. -/
def mnemonic : Enclosing → String
  | loop => "LOOP"
  | loopLeft => "LOOP_LEFT"
  | dip => "DIP"

/-- The name in encoded trees. -/
def tag : Enclosing → String
  | loop => "Loop"
  | loopLeft => "LoopLeft"
  | dip => "Dip"

end Enclosing

/-- Instructions with a variable note and a block that runs for each element. -/
inductive Traversal where
  | map
  | iter
deriving DecidableEq, Repr

namespace Traversal

/-- Every member of the family. -/
def all : List Traversal := [map, iter]

/-- The word in source text. -/
def mnemonic : Traversal → String
  | map => "MAP"
  | iter => "ITER"

/-- The name in encoded trees. -/
def tag : Traversal → String
  | map => "Map"
  | iter => "Iter"

end Traversal

/-- One of the two components of a pair or a union. -/
inductive Side where
  | left
  | right
deriving DecidableEq, Repr

namespace Side

/-- Both sides. -/
def all : List Side := [left, right]

/-- The instruction that takes this component of a pair. -/
def projection : Side → String
  | left => "CAR"
  | right => "CDR"

/-- The name of that instruction in encoded trees. -/
def projectionTag : Side → String
  | left => "Car"
  | right => "Cdr"

/-- The instruction that makes this variant of a union. -/
def injection : Side → String
  | left => "LEFT"
  | right => "RIGHT"

/-- The name of that instruction, and of the literal, in encoded trees. -/
def injectionTag : Side → String
  | left => "Left"
  | right => "Right"

/-- The letter for a step to this component in the name of a projection path. -/
def letter : Side → Char
  | left => 'A'
  | right => 'D'

/-- The step that a letter denotes. -/
def ofLetter? : Char → Option Side
  | 'A' => some left
  | 'D' => some right
  | _ => none

/-- The name of the step in encoded trees. -/
def stepTag : Side → String
  | left => "A"
  | right => "D"

end Side

/-- The six comparisons that the names of macros mention. -/
inductive Comparison where
  | eq
  | neq
  | lt
  | gt
  | le
  | ge
deriving DecidableEq, Repr

namespace Comparison

/-- Every comparison. -/
def all : List Comparison := [eq, neq, lt, gt, le, ge]

/-- The letters that name the comparison in source text. -/
def mnemonic : Comparison → String
  | eq => "EQ"
  | neq => "NEQ"
  | lt => "LT"
  | gt => "GT"
  | le => "LE"
  | ge => "GE"

/-- The name in encoded trees. -/
def tag : Comparison → String
  | eq => "Eq"
  | neq => "Neq"
  | lt => "Lt"
  | gt => "Gt"
  | le => "Le"
  | ge => "Ge"

end Comparison

end Michelson
