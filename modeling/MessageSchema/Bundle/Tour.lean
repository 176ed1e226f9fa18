import MessageSchema.Bundle.Fingerprint

/-!
Fingerprints by a tour of the definitions. All visits share one stack of the names that are being
visited: a name is put on it before its definition is visited, and taken off again when the visit has
succeeded. A tour that fails leaves the stack as it is. That tours come to an end is not built in.
-/
namespace MessageSchema

/-- How a visit begins: with so many visits under way, itself among them, and with these names on the
stack, the latest first. -/
structure Entry where
  depth : Nat
  stack : List String

/-- The stack, and a record of the visits so far. The record is only kept to be looked at. -/
structure Tour where
  stack : List String
  entries : List Entry

def Tour.start : Tour := ⟨[], []⟩

/-- A part of a visit: without an end it has no outcome. -/
abbrev Visit := ExceptT SchemaError (StateT Tour Option)

namespace Visit

def enter (depth : Nat) : Visit Unit :=
  modify fun t => { t with entries := t.entries ++ [⟨depth, t.stack⟩] }

def push (name : String) : Visit Unit := modify fun t => { t with stack := name :: t.stack }

def pop : Visit Unit := modify fun t => { t with stack := t.stack.tail }

end Visit

namespace Bundle

def visit (b : Bundle) (depth : Nat) (d : Definition) : Visit (List Char) := do
  Visit.enter depth
  let lines ← d.members.mapM fun f => do
    if TypeName.isBuiltin f.typeName then return f.builtinSignature
    else
      match b.lookup? f.typeName with
      | none => throw (.missingType f.typeName)
      | some target =>
        if f.typeName ∈ (← get).stack then throw (.cyclicType f.typeName)
        else
          Visit.push f.typeName
          let digest ← (b.visit (d := target)) (depth + 1)
          Visit.pop
          return f.complexSignature digest
  return Digest.textDigest (Text.unlines (d.constants.map Field.constantSignature ++ lines))
partial_fixpoint

def visitMember (b : Bundle) (depth : Nat) (f : Field) : Visit Line :=
  if TypeName.isBuiltin f.typeName then return f.builtinSignature
  else
    match b.lookup? f.typeName with
    | none => throw (.missingType f.typeName)
    | some target => do
      if f.typeName ∈ (← get).stack then throw (.cyclicType f.typeName)
      else
        Visit.push f.typeName
        let digest ← b.visit (depth + 1) target
        Visit.pop
        return f.complexSignature digest

theorem visit_eq (b : Bundle) (depth : Nat) (d : Definition) :
    b.visit depth d = do
      Visit.enter depth
      let lines ← d.members.mapM (b.visitMember depth)
      return Digest.textDigest (Text.unlines (d.constants.map Field.constantSignature ++ lines)) := by
  rw [visit]
  rfl

def tour : Bundle → Visit String
  | [] => throw .emptyBundle
  | root :: others => return String.ofList (← visit (root :: others) 1 root)

def tourOf (b : Bundle) (name : String) : Visit String :=
  match b with
  | [] => throw .emptyBundle
  | _ :: _ =>
    match b.lookup? name with
    | none => throw (.missingType name)
    | some d => do
      Visit.push name
      return String.ofList (← b.visit 1 d)

end Bundle
end MessageSchema
