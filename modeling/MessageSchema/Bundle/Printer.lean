import MessageSchema.Definition.Reader

/-!
The canonical text of a bundle: constants before members, one field a line, and in front of every
definition but the first a separator and a header.
-/
namespace MessageSchema

namespace Field

/-- The brackets behind the type of an array: its length, or else the bound on its length. -/
def brackets (f : Field) : List Char :=
  match f.arrayLength, f.arrayUpperBound with
  | some length, _ => '[' :: Decimal.ofNat length.toNat ++ [']']
  | none, some bound => '[' :: '<' :: '=' :: Decimal.ofNat bound.toNat ++ [']']
  | none, none => ['[', ']']

def bound (f : Field) : List Char :=
  match f.upperBound with
  | some bound => '<' :: '=' :: Decimal.ofNat bound.toNat
  | none => []

def constantLine (f : Field) : Line :=
  f.typeName.toList ++ ' ' :: f.name.toList ++ [' ', '=', ' '] ++ f.constantText

def defaultText (f : Field) : List Char :=
  match f.defaultValue with
  | some value => ' ' :: value.text
  | none => []

def memberLine (f : Field) : Line :=
  f.typeName.toList ++ f.bound ++ (if f.isArray then f.brackets else [])
    ++ ' ' :: f.name.toList ++ f.defaultText

end Field

namespace Definition

def separator : Line := List.replicate 80 '='

def headerLine (d : Definition) : Line :=
  headerMark ++ ' ' :: (d.name.getD "").toList

def constantLines (d : Definition) : List Line := d.constants.map Field.constantLine

def memberLines (d : Definition) : List Line := d.members.map Field.memberLine

end Definition

namespace Bundle

/-- An empty line stands before the members of a definition, unless nothing stands before it. -/
def putMembers (before : List Line) (d : Definition) : List Line :=
  if before = [] ∨ d.members = [] then before ++ d.memberLines
  else before ++ [] :: d.memberLines

def rootLines (d : Definition) : List Line := putMembers d.constantLines d

def otherLines (d : Definition) : List Line :=
  [] :: Definition.separator :: putMembers (d.headerLine :: d.constantLines) d

def printLines : Bundle → List Line
  | [] => []
  | root :: others => rootLines root ++ others.flatMap otherLines

def print (b : Bundle) : String := String.ofList (Text.trim (Text.unlines b.printLines))

end Bundle
end MessageSchema
