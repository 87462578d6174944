import Michelson.Code
import Michelson.Json.Decoder

/-!
# Decoders of notes, types and pair trees

Trees nest in trees, so the decoders are written against a `Decoders` record
that is used for what is nested in them.
-/

namespace Michelson

/-- The decoders to use for what is nested. -/
structure Decoders where
  type : Decoder Ty
  pairTree : Decoder PairTree
  data : Decoder Data
  op : Decoder Op

namespace Decoders

/-- The decoders to which no calls are left. -/
def exhausted : Decoders where
  type _ _ := none
  pairTree _ _ := none
  data _ _ := none
  op _ _ := none

end Decoders

namespace Decoder

/-- A slot for a note. -/
def note {σ : Sigil} : Decoder (Note σ) := textOrNull.map Note.mk

/-- A base type. -/
def base : Decoder Base := choice Base.tag Base.all

/-- A comparable type. -/
def comparable : Decoder Comparable := record2 "base" "note" base note Comparable.mk

variable (g : Decoders)

/-- The parts of a type with two components. -/
def joint (j : Joint) : Decoder (Note .type → Ty) :=
  tuple4 note note g.type g.type fun lf rf l r n => .joint n j lf rf l r

/-- The parts of a type with keys. -/
def table (t : Table) : Decoder (Note .type → Ty) :=
  tuple2 comparable g.type fun k v n => .table n t k v

/-- The variants of a type, each still without its note. -/
def kindCase : String → Option (Payload (Note .type → Ty))
  | "Comparable" => some (.full (base.map fun b n => .atom n (.base b)))
  | "Key" => some (.empty fun n => .atom n .key)
  | "Unit" => some (.empty fun n => .atom n .unit)
  | "Signature" => some (.empty fun n => .atom n .signature)
  | "Option" => some (.full (tuple2 note g.type fun f t n => .option n f t))
  | "List" => some (.full (g.type.map fun t n => .wrapped n .list t))
  | "Set" => some (.full (comparable.map fun c n => .set n c))
  | "Operation" => some (.empty fun n => .atom n .operation)
  | "Contract" => some (.full (g.type.map fun t n => .wrapped n .contract t))
  | "Pair" => some (.full (joint g .pair))
  | "Or" => some (.full (joint g .or))
  | "Lambda" => some (.full (tuple2 g.type g.type fun d c n => .lambda n d c))
  | "Map" => some (.full (table g .map))
  | "BigMap" => some (.full (table g .bigMap))
  | _ => none

/-- A type. -/
def type : Decoder Ty :=
  record2 "kind" "note" (variant (kindCase g)) note fun kind n => kind n

/-- The variants of a pair tree. -/
def pairTreeCase : String → Option (Payload PairTree)
  | "Leaf" => some (.full (record2 "var" "field" note note .leaf))
  | "Node" => some (.full (tuple2 g.pairTree g.pairTree .node))
  | _ => none

/-- A pair tree. -/
def pairTree : Decoder PairTree := variant (pairTreeCase g)

end Decoder

end Michelson
