import Michelson.Fingerprint
import Michelson.Parse
import Michelson.Report

/-!
# The call interface

The three services as functions on byte strings that end at their first zero
byte. An argument that is missing or is not UTF-8 gets one fixed failure. No
answer contains the zero character, since it could not be passed on.
-/

namespace Michelson.CallInterface

/-- The text that an argument holds: the part before the first zero byte, if
there is an argument and that part is UTF-8. -/
def argumentText? (argument : Option (List UInt8)) : Option String := do
  let bytes ← argument
  String.fromUTF8? (bytes.takeWhile (· != 0)).toByteArray

/-- The failure for an argument without a text. -/
def unusableArgument : String := "null or invalid UTF-8 input"

/-- The text without zero characters. -/
def withoutZeros (s : String) : String :=
  String.ofList (s.toList.filter fun c => c.toNat != 0)

/-- The answer to a call: a result, or a failure. -/
abbrev Answer := Except String String

/-- The answer of a service, as it is passed on. -/
def Answer.passed : Answer → Answer
  | .ok result => .ok (withoutZeros result)
  | .error failure => .error (withoutZeros failure)

/-- Calls a service on the text of an argument. -/
def call (service : String → Answer) (argument : Option (List UInt8)) : Answer :=
  match argumentText? argument with
  | none => .error (withoutZeros unusableArgument)
  | some text => (service text).passed

/-- The document of a contract, in its pretty form. -/
def parseContract : Option (List UInt8) → Answer :=
  call fun text =>
    match Contract.parse text with
    | .ok c => .ok c.document.pretty
    | .error e => .error e.message

/-- The report on a contract. An invalid contract is no failure. -/
def check : Option (List UInt8) → Answer :=
  call fun text => .ok (Report.ofResult (Contract.parse text)).render

/-- The fingerprint of a contract. -/
def fingerprint : Option (List UInt8) → Answer :=
  call fun text =>
    match Contract.parse text with
    | .ok c => .ok c.fingerprint
    | .error e => .error e.message

end Michelson.CallInterface
