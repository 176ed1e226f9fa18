import MessageSchema.Definition.Reader
import MessageSchema.Bundle.Section
import MessageSchema.Bundle.Resolution

/-!
A bundle read from a text: one definition a section, repeated definitions dropped, type names
resolved unless they are to be kept.
-/
namespace MessageSchema
namespace Bundle

/-- Of equal definitions only the first stays. -/
def ofSections (sections : List (List Line)) : Except SchemaError Bundle :=
  (sections.mapM Definition.ofLines).map List.eraseDups

def ofTextAsWritten (text : String) : Except SchemaError Bundle :=
  ofSections (Section.ofText text.toList)

def ofText (keepsTypeNames : Bool) (text : String) : Except SchemaError Bundle := do
  let written ← ofTextAsWritten text
  if keepsTypeNames then return written else written.resolve

/-- Only the first dialect can be read. -/
def parse (options : ReadOptions) (text : String) : Except SchemaError Bundle :=
  match options.dialect with
  | .ros1 => ofText options.keepsTypeNames text
  | dialect => .error (.unsupportedDialect dialect)

end Bundle
end MessageSchema
