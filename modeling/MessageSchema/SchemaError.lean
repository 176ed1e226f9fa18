import MessageSchema.Dialect

/-!
What can go wrong with a schema, and the sentence that says so.
-/
namespace MessageSchema

inductive HeaderFault where
  | emptyName
  | secondName (first second : String)
deriving Repr, DecidableEq

inductive SchemaError where
  | malformedField (line : String)
  | malformedSection (fault : HeaderFault)
  | unsupportedDialect (dialect : Dialect)
  | missingType (typeName : String)
  | ambiguousType (typeName : String)
  | emptyBundle
  | cyclicType (typeName : String)
deriving Repr, DecidableEq

def HeaderFault.message : HeaderFault → String
  | .emptyName => "empty name in `MSG:` header"
  | .secondName first second =>
    "section already named '" ++ first ++ "', found second header for '" ++ second ++ "'"

def SchemaError.message : SchemaError → String
  | .malformedField line => "could not parse line: '" ++ line ++ "'"
  | .malformedSection fault => "malformed section: " ++ fault.message
  | .unsupportedDialect dialect => dialect.name ++ " parsing is not implemented"
  | .missingType typeName => "missing type definition for '" ++ typeName ++ "'"
  | .ambiguousType typeName =>
    "cannot unambiguously determine fully-qualified type name for '" ++ typeName ++ "'"
  | .emptyBundle => "cannot produce md5sum for empty definition list"
  | .cyclicType typeName => "type '" ++ typeName ++ "' is defined in terms of itself"

end MessageSchema
