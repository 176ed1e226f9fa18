import MessageSchema.Field.Declaration
import MessageSchema.Definition

/-!
A definition read from the lines of its section. A line that starts with the header mark names the
definition, wherever it stands; every other line declares a field. The first line at fault decides
the error.
-/
namespace MessageSchema
namespace Definition

def headerMark : Line := ['M', 'S', 'G', ':']

def headerName? (line : Line) : Option Line := (headerMark.isPrefixOf? line).map Text.trim

def cleanLines (lines : List Line) : List Line := (lines.map Text.clean).filter (· ≠ [])

def putName (d : Definition) (name : Line) : Except SchemaError Definition :=
  if name = [] then .error (.malformedSection .emptyName)
  else
    match d.name with
    | some first => .error (.malformedSection (.secondName first (String.ofList name)))
    | none => .ok { d with name := some (String.ofList name) }

def putLine (d : Definition) (line : Line) : Except SchemaError Definition :=
  match headerName? line with
  | some name => d.putName name
  | none => (Field.ofLine line).map fun f => { d with fields := d.fields ++ [f] }

def ofLines (lines : List Line) : Except SchemaError Definition :=
  (cleanLines lines).foldlM putLine { name := none, fields := [] }

end Definition
end MessageSchema
