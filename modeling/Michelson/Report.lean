import Michelson.Decoding
import Michelson.Error
import Michelson.Json.Writer

/-!
# Reports

A report says whether a contract is valid, and if not, why and where.
-/

namespace Michelson

/-- An error as a report shows it. -/
structure ErrorReport where
  kind : String
  line : Option Nat
  column : Option Nat
  message : String
deriving DecidableEq, Repr

/-- Whether a contract is valid, with the error if it is not. -/
structure Report where
  valid : Bool
  error : Option ErrorReport
deriving DecidableEq, Repr

namespace ErrorReport

/-- The report of an error. -/
def ofError (e : Error) : ErrorReport :=
  ⟨e.kind, e.position?.map (·.line), e.position?.map (·.column), e.message⟩

/-- The document of the report of an error. -/
def document (r : ErrorReport) : Json :=
  .record [("kind", .text r.kind), ("line", Json.natOrNull r.line),
    ("column", Json.natOrNull r.column), ("message", .text r.message)]

/-- A line or column, or null in its place. It may be missing. -/
def place (budget : Nat) : Option Json → Option (Option Nat)
  | none => some none
  | some j => Decoder.orNull (Decoder.natBelow Numeral.bound64) budget j

/-- The report of an error from its document. -/
def decoder : Decoder ErrorReport :=
  Decoder.record ["kind", "line", "column", "message"] fun budget parts =>
    match parts with
    | [some k, l, c, some m] => do
      let k ← Decoder.text budget k
      let l ← place budget l
      let c ← place budget c
      let m ← Decoder.text budget m
      some ⟨k, l, c, m⟩
    | _ => none

end ErrorReport

namespace Report

variable {α : Type}

/-- The report on the result of reading something. -/
def ofResult : Except Error α → Report
  | .ok _ => ⟨true, none⟩
  | .error e => ⟨false, some (ErrorReport.ofError e)⟩

/-- The document of a report. -/
def document (r : Report) : Json :=
  .record [("valid", .bool r.valid),
    ("error", match r.error with
      | some e => e.document
      | none => .null)]

/-- The text of a report. -/
def render (r : Report) : String := r.document.pretty

/-- A report from its document. -/
def decoder : Decoder Report :=
  Decoder.record ["valid", "error"] fun budget parts =>
    match parts with
    | [some v, none] => do
      let v ← Decoder.bool budget v
      some ⟨v, none⟩
    | [some v, some e] => do
      let v ← Decoder.bool budget v
      let e ← Decoder.orNull ErrorReport.decoder budget e
      some ⟨v, e⟩
    | _ => none

/-- Reads a report from the text of its document. -/
def ofDocument? (text : String) : Option Report := decoder.parse text

end Report

end Michelson
