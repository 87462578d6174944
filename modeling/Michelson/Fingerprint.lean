import Michelson.Form.Document
import Michelson.Sha256

/-!
# Fingerprints

The fingerprint of a contract is the hash of its canonical form. Two sources
that differ in layout only have the same.
-/

namespace Michelson

/-- The lowercase hexadecimal SHA-256 hash of the UTF-8 form of the canonical
form of a contract. -/
def Contract.fingerprint (c : Contract) : String :=
  String.ofList (Numeral.hexBytes (Sha256.digest c.canonical.toUTF8.toList))

end Michelson
