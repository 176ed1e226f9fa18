import MessageSchema.Text.Line
import MessageSchema.Definition
import MessageSchema.SchemaError
import MessageSchema.Digest.MD5

/-!
Fingerprints. A definition is digested from its constants and then its members, a line each; for
a member that refers to another definition, the digest of that one stands in for the type. The
names on the way down form a trail, and a name that is met again closes a cycle.
-/
namespace MessageSchema

namespace Field

def constantSignature (f : Field) : Line :=
  f.typeName.toList ++ ' ' :: f.name.toList ++ '=' :: f.constantText

def builtinType (f : Field) : List Char :=
  match f.isArray, f.arrayLength with
  | false, _ => f.typeName.toList
  | true, none => f.typeName.toList ++ ['[', ']']
  | true, some length => f.typeName.toList ++ '[' :: Decimal.ofNat length.toNat ++ [']']

def builtinSignature (f : Field) : Line := f.builtinType ++ ' ' :: f.name.toList

/-- Brackets do not show in the signature of a complex member. -/
def complexSignature (f : Field) (digest : List Char) : Line := digest ++ ' ' :: f.name.toList

end Field

namespace Bundle

/-- Of several definitions of one name the last counts. -/
def lookup? (b : Bundle) (name : String) : Option Definition :=
  b.findRev? fun d => d.name == some name

theorem mem_of_lookup? {b : Bundle} {name : String} {d : Definition} (h : b.lookup? name = some d) :
    d ∈ b ∧ d.name = some name := by
  rw [lookup?, List.findRev?_eq_find?_reverse] at h
  exact ⟨by simpa using List.mem_of_find?_eq_some h, by simpa using List.find?_some h⟩

def unvisited (b : Bundle) (trail : List String) : Nat :=
  b.countP fun d => d.name.any fun name => !trail.contains name

/-- A new name on the trail is one that a definition bears. -/
theorem unvisited_cons_lt {b : Bundle} {trail : List String} {name : String} {d : Definition}
    (h : b.lookup? name = some d) (hnew : name ∉ trail) :
    b.unvisited (name :: trail) < b.unvisited trail := by
  obtain ⟨hmem, hname⟩ := mem_of_lookup? h
  obtain ⟨before, after, rfl⟩ := List.append_of_mem hmem
  have le (ds : Bundle) : unvisited ds (name :: trail) ≤ unvisited ds trail := by
    refine List.countP_mono_left fun d _ hd => ?_
    cases hn : d.name <;> simp_all
  have hbefore := le before
  have hafter := le after
  simp [unvisited, List.countP_append, hname, hnew] at hbefore hafter ⊢
  omega

/-- The digest of a definition that is reached by a trail of names. The trail takes a new name with
every definition on the way, so it grows no longer than there are names. -/
def digest (b : Bundle) (trail : List String) (d : Definition) : Except SchemaError (List Char) := do
  let lines ← d.members.mapM fun f =>
    if TypeName.isBuiltin f.typeName then .ok f.builtinSignature
    else
      match _found : b.lookup? f.typeName with
      | none => .error (.missingType f.typeName)
      | some target =>
        if _new : f.typeName ∈ trail then .error (.cyclicType f.typeName)
        else (digest b (f.typeName :: trail) target).map f.complexSignature
  return Digest.textDigest (Text.unlines (d.constants.map Field.constantSignature ++ lines))
termination_by b.unvisited trail
decreasing_by exact unvisited_cons_lt ‹_› ‹_›

def signature (b : Bundle) (trail : List String) (f : Field) : Except SchemaError Line :=
  if TypeName.isBuiltin f.typeName then .ok f.builtinSignature
  else
    match b.lookup? f.typeName with
    | none => .error (.missingType f.typeName)
    | some target =>
      if f.typeName ∈ trail then .error (.cyclicType f.typeName)
      else (b.digest (f.typeName :: trail) target).map f.complexSignature

theorem digest_eq (b : Bundle) (trail : List String) (d : Definition) :
    b.digest trail d = (d.members.mapM (b.signature trail)).map fun lines =>
      Digest.textDigest (Text.unlines (d.constants.map Field.constantSignature ++ lines)) := by
  rw [digest]
  have map_eq {α β : Type} (x : Except SchemaError α) (g : α → β) :
      x.map g = x >>= fun a => .ok (g a) := by
    cases x <;> rfl
  rw [map_eq]
  congr 2
  funext f
  unfold signature
  split
  · rfl
  · split <;> rename_i h <;> rw [h]
    split <;> rfl

/-- The fingerprint of the root, which is reached by no name. -/
def fingerprint : Bundle → Except SchemaError String
  | [] => .error .emptyBundle
  | root :: others => (digest (root :: others) [] root).map String.ofList

def fingerprintOf (b : Bundle) (name : String) : Except SchemaError String :=
  match b with
  | [] => .error .emptyBundle
  | _ :: _ =>
    match b.lookup? name with
    | none => .error (.missingType name)
    | some d => (b.digest [name] d).map String.ofList

end Bundle
end MessageSchema
