import Michelson.Decoding
import Michelson.Error
import Michelson.Json.Writer

/-!
# Options

What a caller may ask of the reader of contracts. The options have a document
of their own, in which nothing is required.
-/

namespace Michelson

/-- The options of the reader of contracts. -/
structure Options where
  /-- how deep types, values, blocks and steps may nest; without it, to any depth -/
  maxDepth : Option Nat := none
deriving DecidableEq, Repr, Inhabited

namespace Options

/-- The limit: null, or a natural number of 64 bits. -/
def limit : Decoder (Option Nat) := Decoder.orNull (Decoder.natBelow Numeral.bound64)

/-- Options from their document: an object, or an array with at most the limit
in it. -/
def decoder : Decoder Options
  | _ + 1, .array [] => some {}
  | budget, j =>
    Decoder.record ["max_depth"] (fun budget parts =>
      match parts with
      | [none] => some {}
      | [some l] => (limit budget l).map Options.mk
      | _ => none) budget j

/-- Reads options from the text of a document. `detail` is what the reader of documents says
about a text that it refuses. Its wording is its own, and any will do. -/
def parse (text : String) (detail : String → String := fun _ => "") : Except Error Options :=
  match decoder.parse text with
  | some options => .ok options
  | none => .error (.options (detail text))

/-- The document of options. -/
def document (o : Options) : Json := .record [("max_depth", Json.natOrNull o.maxDepth)]

/-- Options as a log line shows them. -/
def render (o : Options) : String :=
  let limit := match o.maxDepth with
    | none => "None"
    | some l => String.join ["Some(", String.ofList (Numeral.decimal l), ")"]
  String.join ["ParseOptions \x7b max_depth: ", limit, " \x7d"]

end Options

end Michelson
