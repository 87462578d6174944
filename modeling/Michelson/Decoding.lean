import Michelson.Decoding.Code
import Michelson.Json.Reader

/-!
# Reading trees from documents

The decoders, tied together. Each nested tree stands within a bracket, so the
number of brackets that may be open, and one more, bounds the calls.
-/

namespace Michelson

namespace Decoders

/-- The decoders with one more call left than those of `g`. -/
def next (g : Decoders) : Decoders where
  type := Decoder.type g
  pairTree := Decoder.pairTree g
  data := Decoder.data g
  op := Decoder.op g

/-- The decoders with the given number of calls left. -/
def tied (calls : Nat) : Decoders := calls.repeat next exhausted

/-- The decoders for a whole document. -/
def full : Decoders := tied (Decoder.maxOpen + 1)

end Decoders

/-- Reads a value of some type from the text of a document. -/
def Decoder.parse {α : Type} (d : Decoder α) (text : String) : Option α := do
  let j ← Json.parse text
  d Decoder.maxOpen j

/-- Reads a type from its document. -/
def Ty.ofDocument? (text : String) : Option Ty := Decoders.full.type.parse text

/-- Reads a value from its document. -/
def Data.ofDocument? (text : String) : Option Data := Decoders.full.data.parse text

/-- Reads a pair tree from its document. -/
def PairTree.ofDocument? (text : String) : Option PairTree := Decoders.full.pairTree.parse text

/-- Reads a block from its document. -/
def Block.ofDocument? (text : String) : Option Block :=
  (Decoder.block Decoders.full).parse text

/-- Reads a contract from its document. -/
def Contract.ofDocument? (text : String) : Option Contract :=
  (Decoder.contract Decoders.full).parse text

end Michelson
