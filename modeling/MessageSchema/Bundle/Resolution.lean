import MessageSchema.Definition
import MessageSchema.SchemaError

/-!
Resolution of type names. Each complex field names its type as it was written in its package; the
lookup rule for that name picks candidates among all definitions, and the name of the only
candidate takes the place of what was written. A bundle is resolved as a value, or in place.
-/
namespace MessageSchema

inductive LookupRule where
  | exactly (name : String)
  | inAnyPackage (shortName : String)
deriving Repr, DecidableEq

namespace LookupRule

/-- The empty name and full names stand for themselves, `Header` for the standard header; any other
name lies in the package of the definition that uses it, or in any package if that has none. -/
def ofWritten (package : Option String) (written : String) : LookupRule :=
  if written = "" then .exactly ""
  else if TypeName.isQualified written then .exactly written
  else if written = "Header" then .exactly TypeName.header
  else
    match package with
    | some package => .exactly (package ++ "/" ++ written)
    | none => .inAnyPackage written

/-- Whether a definition of this name is a candidate; no name counts as the empty one. -/
def admits (rule : LookupRule) (name : Option String) : Bool :=
  match rule with
  | .exactly full => name.getD "" == full
  | .inAnyPackage short => ('/' :: short.toList).isSuffixOf (name.getD "").toList

end LookupRule

namespace Bundle

def candidates (b : Bundle) (rule : LookupRule) : List Definition :=
  b.filter fun d => rule.admits d.name

def fullName (b : Bundle) (package : Option String) (written : String) :
    Except SchemaError String :=
  match b.candidates (.ofWritten package written) with
  | [] => .error (.missingType written)
  | [d] =>
    match d.name with
    | none => .error (.missingType written)
    | some name => if name = "" then .error (.missingType written) else .ok name
  | _ => .error (.ambiguousType written)

def resolveField (b : Bundle) (package : Option String) (f : Field) : Except SchemaError Field :=
  if f.isComplex then
    (b.fullName package f.typeName).map fun typeName => { f with typeName }
  else .ok f

def resolveDefinition (b : Bundle) (d : Definition) : Except SchemaError Definition :=
  (d.fields.mapM (b.resolveField d.package?)).map fun fields => { d with fields }

/-- The bundle with full type names; the error is that of the first name that has none. -/
def resolve (b : Bundle) : Except SchemaError Bundle := b.mapM (resolveDefinition b)

/-- A full name for the type of one field, which is told by its place. -/
structure Renaming where
  definition : Nat
  field : Nat
  typeName : String
deriving Repr, DecidableEq

def fieldRenamings (b : Bundle) (package : Option String) (i j : Nat) (f : Field) :
    Except SchemaError (List Renaming) :=
  if f.isComplex then
    (b.fullName package f.typeName).map fun typeName => [⟨i, j, typeName⟩]
  else .ok []

def definitionRenamings (b : Bundle) (i : Nat) (d : Definition) :
    Except SchemaError (List Renaming) :=
  d.fields.zipIdx.flatMapM fun (f, j) => b.fieldRenamings d.package? i j f

/-- The full names of all complex fields, each looked up among the definitions as they are. -/
def renamings (b : Bundle) : Except SchemaError (List Renaming) :=
  b.zipIdx.flatMapM fun (d, i) => b.definitionRenamings i d

def rename (b : Bundle) (r : Renaming) : Bundle :=
  b.modify r.definition fun d =>
    { d with fields := d.fields.modify r.field fun f => { f with typeName := r.typeName } }

def resolveInPlace : EStateM SchemaError Bundle Unit := do
  match (← get).renamings with
  | .ok rs => rs.forM fun r => modify fun b => b.rename r
  | .error e => throw e

def settle (b : Bundle) : Bundle × Option SchemaError :=
  match resolveInPlace.run b with
  | .ok _ b' => (b', none)
  | .error e b' => (b', some e)

end Bundle
end MessageSchema
