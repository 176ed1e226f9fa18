import MessageSchema.Proofs.Fingerprint.Structure

/-!
Expansions. A definition is expanded to a tree by putting, for every reference, the expansion of
the definition that it leads to. The tree holds what fingerprints are made of and none of the names
of definitions.
-/
namespace MessageSchema

structure ExpandedConstant where
  typeName : String
  name : String
  value : List Char

inductive ExpandedMember (α : Type) where
  | builtin (typeName : String) (isArray : Bool) (arrayLength : Option UInt64) (name : String)
  | complex (name : String) (target : α)

inductive Expansion where
  | node (constants : List ExpandedConstant) (members : List (ExpandedMember Expansion))

instance : Inhabited Expansion := ⟨.node [] []⟩

namespace Field

def expandedConstant (f : Field) : ExpandedConstant := ⟨f.typeName, f.name, f.constantText⟩

def expandedMember (treeOf : String → Expansion) (f : Field) : ExpandedMember Expansion :=
  if TypeName.isBuiltin f.typeName then .builtin f.typeName f.isArray f.arrayLength f.name
  else .complex f.name (treeOf f.typeName)

end Field

/-- The tree of a definition, given the trees of the definitions that it refers to. -/
def Definition.expansion (treeOf : String → Expansion) (d : Definition) : Expansion :=
  .node (d.constants.map Field.expandedConstant) (d.members.map (Field.expandedMember treeOf))

namespace Bundle

variable {b : Bundle} {d : Definition} {tree tree' : Expansion}

inductive Expands (b : Bundle) : Definition → Expansion → Prop
  | intro {d : Definition} (target : String → Definition) (treeOf : String → Expansion)
    (found : ∀ t ∈ d.references, b.lookup? t = some (target t))
    (deeper : ∀ t ∈ d.references, Expands b (target t) (treeOf t)) :
    Expands b d (d.expansion treeOf)

theorem expansion_congr {treeOf treeOf' : String → Expansion}
    (heq : ∀ t ∈ d.references, treeOf t = treeOf' t) : d.expansion treeOf = d.expansion treeOf' := by
  have hmembers : d.members.map (Field.expandedMember treeOf) =
      d.members.map (Field.expandedMember treeOf') := by
    refine List.map_congr_left fun f hf => ?_
    cases hbuiltin : TypeName.isBuiltin f.typeName with
    | true => simp [Field.expandedMember, hbuiltin]
    | false =>
      have hmem := Definition.typeName_mem_references hf hbuiltin
      simp [Field.expandedMember, hbuiltin, heq _ hmem]
  rw [Definition.expansion, hmembers, Definition.expansion]

namespace Expands

theorem exists_deeper (hd : b.Expands d tree) : ∃ treeOf, tree = d.expansion treeOf ∧
    ∀ t ∈ d.references, ∀ e, b.lookup? t = some e → b.Expands e (treeOf t) := by
  obtain ⟨target, treeOf, found, deeper⟩ := hd
  refine ⟨treeOf, rfl, fun t ht e hfound => ?_⟩
  rw [← Option.some.inj ((found t ht).symm.trans hfound)]
  exact deeper t ht

theorem unique (hd : b.Expands d tree) (hd' : b.Expands d tree') : tree = tree' := by
  induction hd generalizing tree' with
  | intro target treeOf found deeper ih =>
    obtain ⟨treeOf', rfl, deeper'⟩ := hd'.exists_deeper
    apply expansion_congr
    intro t ht
    exact ih t ht (deeper' t ht (target t) (found t ht))

end Expands

theorem StructuralHash.exists_expands {h : String} (hd : b.StructuralHash d h) :
    ∃ tree, b.Expands d tree := by
  induction hd with
  | intro target hashOf found deeper ih =>
    choose! treeOf htree using ih
    exact ⟨_, .intro target treeOf found htree⟩

end Bundle
end MessageSchema
