import MessageSchema.Field

/-!
Definitions and bundles. A definition is a list of fields under an optional name; a bundle is a
list of definitions whose first one is the root and whose others it refers to by name.
-/
namespace MessageSchema

structure Definition where
  name : Option String
  fields : List Field
deriving BEq

abbrev Bundle := List Definition

namespace Definition

def constants (d : Definition) : List Field := d.fields.filter fun f => f.isConstant

def members (d : Definition) : List Field := d.fields.filter fun f => !f.isConstant

def package? (d : Definition) : Option String := d.name.bind TypeName.package?

structure Summary where
  name : Option String
  package : Option String
  constants : List String
  members : List String
  values : List String

def summary (d : Definition) : Summary where
  name := d.name
  package := d.package?
  constants := d.constants.map Field.name
  members := d.members.map Field.name
  values := d.fields.map fun f => String.ofList f.constantText

end Definition
end MessageSchema
