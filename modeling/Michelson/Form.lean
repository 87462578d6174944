import Michelson.Code

/-!
# Structural forms

The form of a tree forgets what its nodes mean and keeps how they are put
together: a node is a named variant with its parts, a record with labelled
parts, a list or a leaf. JSON documents and dumps are both made from forms.
-/

namespace Michelson

/-- How a tree is put together. -/
inductive Form where
  /-- a variant with its parts -/
  | variant (name : String) (parts : List Form)
  /-- a record; each label belongs to the part at the same place -/
  | record (name : String) (labels : List String) (parts : List Form)
  /-- a variant whose parts are labelled -/
  | labelled (name : String) (labels : List String) (parts : List Form)
  | list (items : List Form)
  | note (sigil : Sigil) (body : Option String)
  | text (text : String)
  | integer (value : Int)
  | number (value : Nat)

namespace Form

/-- The form of a slot for a note. -/
def ofNote {σ : Sigil} (n : Note σ) : Form := .note σ n.body?

/-- The form of a base type. -/
def ofBase (b : Base) : Form := .variant b.tag []

/-- The form of a comparable type. -/
def ofComparable (c : Comparable) : Form :=
  .record "Comparable" ["base", "note"] [ofBase c.base, ofNote c.note]

/-- The form of a type node without its note. -/
def typeNode (kind : Form) (n : Note .type) : Form :=
  .record "Type" ["kind", "note"] [kind, ofNote n]

/-- The form of an atomic type. -/
def ofAtom : Atom → Form
  | .base b => .variant "Comparable" [ofBase b]
  | .key => .variant "Key" []
  | .unit => .variant "Unit" []
  | .signature => .variant "Signature" []
  | .operation => .variant "Operation" []

/-- The name of a type with one component. -/
def wrapperName : Wrapper → String
  | .list => "List"
  | .contract => "Contract"

/-- The name of a type with two components. -/
def jointName : Joint → String
  | .pair => "Pair"
  | .or => "Or"

/-- The name of a type with keys. -/
def tableName : Table → String
  | .map => "Map"
  | .bigMap => "BigMap"

/-- The form of a type. -/
def ofTy : Ty → Form
  | .atom n a => typeNode (ofAtom a) n
  | .option n f t => typeNode (.variant "Option" [ofNote f, ofTy t]) n
  | .wrapped n w t => typeNode (.variant (wrapperName w) [ofTy t]) n
  | .set n c => typeNode (.variant "Set" [ofComparable c]) n
  | .joint n j lf rf l r =>
    typeNode (.variant (jointName j) [ofNote lf, ofNote rf, ofTy l, ofTy r]) n
  | .lambda n d c => typeNode (.variant "Lambda" [ofTy d, ofTy c]) n
  | .table n t k v => typeNode (.variant (tableName t) [ofComparable k, ofTy v]) n

/-- The form of a pair tree. -/
def ofPairTree : PairTree → Form
  | .leaf v f => .labelled "Leaf" ["var", "field"] [ofNote v, ofNote f]
  | .node l r => .variant "Node" [ofPairTree l, ofPairTree r]

/-- The form of a path of projections. -/
def ofPath (path : List Side) : Form :=
  .list (path.map fun side => .variant side.stepTag [])

/-- The form of a comparison. -/
def ofComparison (c : Comparison) : Form := .variant c.tag []

/-- The form of a contract with the given code. -/
def contractNode (parameter storage : Ty) (code : Form) : Form :=
  .record "Contract" ["parameter", "storage", "code"] [ofTy parameter, ofTy storage, code]

mutual

/-- The form of a value. -/
def ofData : Data → Form
  | .int z => .variant "Int" [.integer z]
  | .string s => .variant "String" [.text s]
  | .bytes bs => .variant "Bytes" [.list (bs.map fun b => .number b.toNat)]
  | .constant c => .variant c.keyword []
  | .wrapped w d => .variant w.keyword [ofData d]
  | .pair l r => .variant "Pair" [ofData l, ofData r]
  | .seq items => .variant "Seq" [.list (ofItems items)]
  | .map entries => .variant "Map" [.list (ofEntries entries)]
  | .code block => .variant "InstructionBlock" [.list (ofOps block)]

/-- The forms of the items of a sequence. -/
def ofItems : List Data → List Form
  | [] => []
  | d :: ds => ofData d :: ofItems ds

/-- The form of an entry of a map. -/
def ofEntry : Entry → Form
  | .mk k v => .record "Elt" ["key", "value"] [ofData k, ofData v]

/-- The forms of the entries of a map. -/
def ofEntries : List Entry → List Form
  | [] => []
  | e :: es => ofEntry e :: ofEntries es

/-- The form of a step of a block. -/
def ofOp : Op → Form
  | .prim i => .variant "Prim" [ofInstr i]
  | .mac m => .variant "Mac" [ofMacro m]
  | .seq block => .variant "Seq" [.list (ofOps block)]

/-- The forms of the steps of a block. -/
def ofOps : List Op → List Form
  | [] => []
  | o :: os => ofOp o :: ofOps os

/-- The form of an instruction. -/
def ofInstr : Instr → Form
  | .plain name => .variant name.tag []
  | .noted name v => .variant name.tag [ofNote v]
  | .typed name v t => .variant name.tag [ofNote v, ofTy t]
  | .branch name yes no => .variant name.tag [.list (ofOps yes), .list (ofOps no)]
  | .enclosing name body => .variant name.tag [.list (ofOps body)]
  | .traversal name v body => .variant name.tag [ofNote v, .list (ofOps body)]
  | .project side v f => .variant side.projectionTag [ofNote v, ofNote f]
  | .inject side t v lf rf ty =>
    .variant side.injectionTag [ofNote t, ofNote v, ofNote lf, ofNote rf, ofTy ty]
  | .push v t d => .variant "Push" [ofNote v, ofTy t, ofData d]
  | .some t v f => .variant "Some" [ofNote t, ofNote v, ofNote f]
  | .none t v f ty => .variant "None" [ofNote t, ofNote v, ofNote f, ofTy ty]
  | .unit t v => .variant "Unit" [ofNote t, ofNote v]
  | .pair t v lf rf => .variant "Pair" [ofNote t, ofNote v, ofNote lf, ofNote rf]
  | .nil t v ty => .variant "Nil" [ofNote t, ofNote v, ofTy ty]
  | .emptySet t v c => .variant "EmptySet" [ofNote t, ofNote v, ofComparable c]
  | .emptyMap t v c ty => .variant "EmptyMap" [ofNote t, ofNote v, ofComparable c, ofTy ty]
  | .lambda v d c body => .variant "Lambda" [ofNote v, ofTy d, ofTy c, .list (ofOps body)]
  | .createAccount v w => .variant "CreateAccount" [ofNote v, ofNote w]
  | .createContract v w => .variant "CreateContract" [ofNote v, ofNote w]
  | .originate v w parameter storage code =>
    .variant "CreateContract2"
      [ofNote v, ofNote w, contractNode parameter storage (.list (ofOps code))]

/-- The form of a macro. -/
def ofMacro : Macro → Form
  | .fixed name => .variant name.tag []
  | .compare c v => .variant "Cmp" [ofComparison c, ofNote v]
  | .ifCompared c yes no =>
    .variant "IfX" [ofComparison c, .list (ofOps yes), .list (ofOps no)]
  | .ifCompare c v yes no =>
    .variant "IfCmp" [ofComparison c, ofNote v, .list (ofOps yes), .list (ofOps no)]
  | .ifSome yes no => .variant "IfSome" [.list (ofOps yes), .list (ofOps no)]
  | .assertCompared c => .variant "AssertX" [ofComparison c]
  | .assertCompare c => .variant "AssertCmp" [ofComparison c]
  | .dipDeep depth body => .variant "Diip" [.number depth.toNat, .list (ofOps body)]
  | .dupDeep depth v => .variant "Duup" [.number depth.toNat, ofNote v]
  | .pairUp shape t v => .variant "Papair" [ofPairTree shape, ofNote t, ofNote v]
  | .unpair shape => .variant "Unpair" [ofPairTree shape]
  | .getPath path v f => .variant "Cadr" [ofPath path, ofNote v, ofNote f]
  | .setPath path v f => .variant "SetCadr" [ofPath path, ofNote v, ofNote f]
  | .mapPath path v f body =>
    .variant "MapCadr" [ofPath path, ofNote v, ofNote f, .list (ofOps body)]

end

/-- The form of a block. -/
def ofBlock (block : Block) : Form := .list (ofOps block)

/-- The form of a contract. -/
def ofContract (c : Contract) : Form :=
  contractNode c.parameter c.storage (ofBlock c.code)

end Form

end Michelson
