/-!
Dialects of the schema language, known by name, and the options of reading.
-/
namespace MessageSchema

inductive Dialect where
  | ros1
  | ros2
  | unknown (name : String)
deriving Repr, DecidableEq

namespace Dialect

def ofName (name : String) : Dialect :=
  if name = "ros1msg" then .ros1 else if name = "ros2msg" then .ros2 else .unknown name

def name : Dialect → String
  | .ros1 => "ros1msg"
  | .ros2 => "ros2msg"
  | .unknown name => name

end Dialect

/-- With `keepsTypeNames` the type names stay as they are written and are not resolved. -/
structure ReadOptions where
  dialect : Dialect := .ros1
  keepsTypeNames : Bool := false
deriving Repr, DecidableEq

end MessageSchema
