import MessageSchema.Bundle.Reader
import MessageSchema.Bundle.Printer
import MessageSchema.Bundle.Fingerprint

/-!
A survey of one text: what it says, what is left of that after resolution, its fingerprints, and
what becomes of its canonical text when that is read again.
-/
namespace MessageSchema

/-- A canonical text read again, beside the bundle that it was printed from. -/
structure Echo where
  sameBundle : Bool
  sameText : Bool
  fingerprint : Except SchemaError String

/-- `settled` holds the bundle after the attempt to resolve it; what follows is said of that one. -/
structure Survey where
  written : Bundle
  writtenText : String
  settled : Bundle × Option SchemaError
  fingerprint : Except SchemaError String
  fingerprints : List (String × Except SchemaError String)
  canonicalText : String
  echo : Except SchemaError Echo

namespace Survey

def echoOf (b : Bundle) : Except SchemaError Echo :=
  (Bundle.parse {} b.print).map fun again =>
    { sameBundle := again == b
      sameText := again.print == b.print
      fingerprint := again.fingerprint }

/-- The fingerprint of every name in the bundle, as often as the name occurs. -/
def fingerprintsOf (b : Bundle) : List (String × Except SchemaError String) :=
  (b.filterMap Definition.name).map fun name => (name, b.fingerprintOf name)

def ofBundle (written : Bundle) : Survey :=
  let settled := written.settle
  { written
    writtenText := written.print
    settled
    fingerprint := settled.1.fingerprint
    fingerprints := fingerprintsOf settled.1
    canonicalText := settled.1.print
    echo := echoOf settled.1 }

def ofText (text : String) : Except SchemaError Survey :=
  (Bundle.ofTextAsWritten text).map ofBundle

end Survey
end MessageSchema
