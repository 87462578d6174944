import Michelson.Decoding.Types

/-!
# Decoders of values and code
-/

namespace Michelson.Decoder

/-! ## Numbers -/

/-- The sign of an integer. -/
def sign : Decoder Int
  | _, .integer z => if z = -1 ∨ z = 0 ∨ z = 1 then some z else none
  | _, _ => none

/-- An integer: its sign and its digits in base `2 ^ 32`. With the sign zero it
is zero, whatever its digits are. -/
def integer : Decoder Int :=
  tuple2 sign (list (natBelow Numeral.bound32)) fun s ds => s * Numeral.ofLimbs ds

/-- A depth. -/
def depth : Decoder UInt32 := (natBelow Numeral.bound32).map UInt32.ofNat

/-- A byte. -/
def byte : Decoder UInt8 := (natBelow 256).map UInt8.ofNat

variable (g : Decoders)

/-! ## Values -/

/-- An entry of a map. -/
def entry : Decoder Entry := record2 "key" "value" g.data g.data .mk

/-- A block. -/
def block : Decoder Block := list g.op

/-- The variants of a value. -/
def dataCase : String → Option (Payload Data)
  | "Int" => some (.full (integer.map .int))
  | "String" => some (.full (text.map .string))
  | "Bytes" => some (.full ((list byte).map .bytes))
  | "Unit" => some (.empty (.constant .unit))
  | "True" => some (.empty (.constant .true))
  | "False" => some (.empty (.constant .false))
  | "Pair" => some (.full (tuple2 g.data g.data .pair))
  | "Left" => some (.full (g.data.map (.wrapped .left)))
  | "Right" => some (.full (g.data.map (.wrapped .right)))
  | "Some" => some (.full (g.data.map (.wrapped .some)))
  | "None" => some (.empty (.constant .none))
  | "Seq" => some (.full ((list g.data).map .seq))
  | "Map" => some (.full ((list (entry g)).map .map))
  | "InstructionBlock" => some (.full ((block g).map .code))
  | _ => none

/-- A value. -/
def data : Decoder Data := variant (dataCase g)

/-! ## Instructions -/

/-- A contract. -/
def contract : Decoder Contract :=
  record ["parameter", "storage", "code"] fun budget parts =>
    match parts with
    | [some p, some s, some c] => do
      let p ← g.type budget p
      let s ← g.type budget s
      let c ← block g budget c
      some ⟨p, s, c⟩
    | _ => none

/-- The name of an instruction in encoded trees. -/
def headTag : Instr.Head → String
  | .plain name => name.tag
  | .noted name => name.tag
  | .typed name => name.tag
  | .branch name => name.tag
  | .enclosing name => name.tag
  | .traversal name => name.tag
  | .project side => side.projectionTag
  | .inject side => side.injectionTag
  | .push => "Push"
  | .some => "Some"
  | .none => "None"
  | .unit => "Unit"
  | .pair => "Pair"
  | .nil => "Nil"
  | .emptySet => "EmptySet"
  | .emptyMap => "EmptyMap"
  | .lambda => "Lambda"
  | .createAccount => "CreateAccount"
  | .createContract => "CreateContract"

/-- The parts of an instruction after its name. -/
def instrParts : Instr.Head → Payload Instr
  | .plain name => .empty (.plain name)
  | .noted name => .full (note.map (.noted name))
  | .typed name => .full (tuple2 note g.type (.typed name))
  | .branch name => .full (tuple2 (block g) (block g) (.branch name))
  | .enclosing name => .full ((block g).map (.enclosing name))
  | .traversal name => .full (tuple2 note (block g) (.traversal name))
  | .project side => .full (tuple2 note note (.project side))
  | .inject side => .full (tuple5 note note note note g.type (.inject side))
  | .push => .full (tuple3 note g.type g.data .push)
  | .some => .full (tuple3 note note note .some)
  | .none => .full (tuple4 note note note g.type .none)
  | .unit => .full (tuple2 note note .unit)
  | .pair => .full (tuple4 note note note note .pair)
  | .nil => .full (tuple3 note note g.type .nil)
  | .emptySet => .full (tuple3 note note comparable .emptySet)
  | .emptyMap => .full (tuple4 note note comparable g.type .emptyMap)
  | .lambda => .full (tuple4 note g.type g.type (block g) .lambda)
  | .createAccount => .full (tuple2 note note .createAccount)
  | .createContract => .full (tuple2 note note .createContract)

/-- The parts of an instruction that creates a given contract. -/
def originateParts : Decoder Instr :=
  tuple3 note note (contract g) fun v w c => .originate v w c.parameter c.storage c.code

/-- The variants of an instruction. -/
def instrCase (name : String) : Option (Payload Instr) :=
  if name = "CreateContract2" then some (.full (originateParts g))
  else (Instr.Head.all.find? fun h => headTag h == name).map (instrParts g)

/-- An instruction. -/
def instr : Decoder Instr := variant (instrCase g)

/-! ## Macros -/

/-- A comparison. -/
def comparison : Decoder Comparison := choice Comparison.tag Comparison.all

/-- A path of projections. -/
def path : Decoder (List Side) := list (choice Side.stepTag Side.all)

/-- The variants of a macro. -/
def macroCase : String → Option (Payload Macro)
  | "Cmp" => some (.full (tuple2 comparison note .compare))
  | "IfX" => some (.full (tuple3 comparison (block g) (block g) .ifCompared))
  | "IfCmp" => some (.full (tuple4 comparison note (block g) (block g) .ifCompare))
  | "Papair" => some (.full (tuple3 g.pairTree note note .pairUp))
  | "Unpair" => some (.full (g.pairTree.map .unpair))
  | "Cadr" => some (.full (tuple3 path note note .getPath))
  | "SetCadr" => some (.full (tuple3 path note note .setPath))
  | "MapCadr" => some (.full (tuple4 path note note (block g) .mapPath))
  | "Diip" => some (.full (tuple2 depth (block g) .dipDeep))
  | "Duup" => some (.full (tuple2 depth note .dupDeep))
  | "AssertX" => some (.full (comparison.map .assertCompared))
  | "AssertCmp" => some (.full (comparison.map .assertCompare))
  | "IfSome" => some (.full (tuple2 (block g) (block g) .ifSome))
  | name => (Fixed.all.find? fun m => m.tag == name).map fun m => .empty (.fixed m)

/-- A macro. -/
def mac : Decoder Macro := variant (macroCase g)

/-! ## Steps -/

/-- The variants of a step. -/
def opCase : String → Option (Payload Op)
  | "Prim" => some (.full ((instr g).map .prim))
  | "Mac" => some (.full ((mac g).map .mac))
  | "Seq" => some (.full ((block g).map .seq))
  | _ => none

/-- A step of a block. -/
def op : Decoder Op := variant (opCase g)

end Michelson.Decoder
