import MessageSchema.TypeName
import MessageSchema.Literal

/-!
Fields of a definition. A field is a constant, with a value, or a member, which messages carry; its
attributes are set independently of each other.
-/
namespace MessageSchema

/-- A complex field refers to another definition by its type name. The value of a constant stands
as a literal or as the text that was written. -/
structure Field where
  typeName : String
  name : String
  isComplex : Bool := !TypeName.isBuiltin typeName
  isArray : Bool := false
  arrayLength : Option UInt64 := none
  isConstant : Bool := false
  value : Option Literal := none
  valueText : Option String := none
  upperBound : Option UInt64 := none
  arrayUpperBound : Option UInt64 := none
  defaultValue : Option Literal := none
deriving BEq

namespace Field

def plain (typeName name : String) : Field := { typeName, name }

def asArray (length : Option UInt64) (f : Field) : Field :=
  { f with isArray := true, arrayLength := length }

def asConstant (text : String) (f : Field) : Field :=
  { f with isConstant := true, valueText := some text }

def asLiteral (value : Literal) (f : Field) : Field :=
  { f with isConstant := true, value := some value }

def withDefault (value : Literal) (f : Field) : Field := { f with defaultValue := some value }

/-- The text of a constant's value: what was written, or else the literal's text. -/
def constantText (f : Field) : List Char :=
  match f.valueText, f.value with
  | some text, _ => text.toList
  | none, some value => value.text
  | none, none => []

@[simp] theorem constantText_asConstant (text : String) (f : Field) :
    (f.asConstant text).constantText = text.toList := rfl

inductive Amendment where
  | array (length : Option UInt64)
  | constant (text : String)
  | literal (value : Literal)
  | fallback (value : Literal)

def amend (f : Field) : Amendment → Field
  | .array length => f.asArray length
  | .constant text => f.asConstant text
  | .literal value => f.asLiteral value
  | .fallback value => f.withDefault value

def stages (f : Field) : List Amendment → List Field
  | [] => [f]
  | a :: as => f :: stages (f.amend a) as

end Field
end MessageSchema
