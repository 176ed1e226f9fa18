/-!
Names of types: the built-in table, the two aliases, and the package in front of a full name.
-/
namespace MessageSchema
namespace TypeName

def builtin : List String :=
  ["int8", "uint8", "int16", "uint16", "int32", "uint32", "int64", "uint64", "float32", "float64",
    "string", "bool", "char", "byte", "time", "duration"]

def isBuiltin (name : String) : Bool := builtin.contains name

/-- Old names of the two smallest integers. -/
def aliases : List (String × String) := [("char", "uint8"), ("byte", "int8")]

def normalize (name : String) : String := (aliases.lookup name).getD name

/-- The full name of the type that is written `Header` in any package. -/
def header : String := "std_msgs/Header"

theorem isBuiltin_normalize (name : String) : isBuiltin (normalize name) = isBuiltin name := by
  by_cases hc : name = "char"
  · subst hc; decide
  by_cases hb : name = "byte"
  · subst hb; decide
  simp [normalize, aliases, List.lookup_cons, beq_false_of_ne hc, beq_false_of_ne hb]

def isQualified (name : String) : Bool := name.toList.contains '/'

def beforeLastSlash (cs : List Char) : List Char :=
  ((cs.reverse.dropWhile (· ≠ '/')).drop 1).reverse

/-- The part of a name before its last slash, when that is not empty. -/
def package? (name : String) : Option String :=
  match beforeLastSlash name.toList with
  | [] => none
  | cs => some (String.ofList cs)

end TypeName
end MessageSchema
