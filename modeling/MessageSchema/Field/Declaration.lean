import MessageSchema.Text.Line
import MessageSchema.Field
import MessageSchema.SchemaError

/-!
The line that declares a field: a type, brackets right behind it for an array, blanks, a name, and
for a constant an equals sign with the value. Reading takes the longest piece each time, which is
the only way to cut a line into these pieces.
-/
namespace MessageSchema

inductive Shape where
  | single
  | unbounded
  | fixed (length : UInt64)
deriving Repr, DecidableEq

/-- The pieces of a declaration; `value` is all that follows the equals sign. -/
structure Declaration where
  typeName : List Char
  shape : Shape
  name : List Char
  value : Option (List Char)
deriving Repr, DecidableEq

namespace Declaration

def isTypeChar (c : Char) : Bool := !Text.isBlank c && c != '['

def isNameChar (c : Char) : Bool := !Text.isBlank c && c != '='

/-- The shape between the brackets. A length has to fit sixty-four bits. -/
def shapeOfDigits (digits : List Char) : Option Shape :=
  if digits = [] then some .unbounded
  else if Decimal.toNat digits < UInt64.size then
    some (.fixed (UInt64.ofNat (Decimal.toNat digits)))
  else none

/-- The shape at the front of a text, with the rest; `none` for brackets that say nothing. -/
def readShape : List Char → Option (Shape × List Char)
  | '[' :: cs =>
    match cs.dropWhile Char.isDigit with
    | ']' :: rest => (shapeOfDigits (cs.takeWhile Char.isDigit)).map fun shape => (shape, rest)
    | _ => none
  | cs => some (.single, cs)

/-- The value in what follows the name; `none` when neither a value nor the end follows. -/
def readValue (cs : List Char) : Option (Option (List Char)) :=
  match Text.trimStart cs with
  | [] => some none
  | '=' :: value => some (some value)
  | _ => none

def read? (line : Line) : Option Declaration := do
  let typeName := line.takeWhile isTypeChar
  let (shape, rest) ← readShape (line.dropWhile isTypeChar)
  let blanks := rest.takeWhile Text.isBlank
  let named := rest.dropWhile Text.isBlank
  let name := named.takeWhile isNameChar
  let value ← readValue (named.dropWhile isNameChar)
  guard (typeName ≠ [] ∧ blanks ≠ [] ∧ name ≠ [])
  return { typeName, shape, name, value }

/-- Only a type without brackets may be written by an alias. -/
def unvalued (d : Declaration) : Field :=
  let typeName := String.ofList d.typeName
  let name := String.ofList d.name
  match d.shape with
  | .single => .plain (TypeName.normalize typeName) name
  | .unbounded => (Field.plain typeName name).asArray none
  | .fixed length => (Field.plain typeName name).asArray (some length)

def toField (d : Declaration) : Field :=
  match d.value with
  | none => d.unvalued
  | some value => d.unvalued.asConstant (String.ofList (Text.trim value))

end Declaration

def Field.ofLine (line : Line) : Except SchemaError Field :=
  match Declaration.read? line with
  | some d => .ok d.toField
  | none => .error (.malformedField (String.ofList line))

end MessageSchema
