import MessageSchema.Proofs.Fingerprint.Structure
import Mathlib.Data.List.Nodup

/-!
What a fingerprint depends on. Of a definition it reads some attributes of the fields, and of a
bundle the definitions that are reached. Bundles that agree in these have the same fingerprint, be it
a digest or an error.
-/
namespace MessageSchema

namespace Field

structure IsConstantLike (f g : Field) : Prop where
  typeName : f.typeName = g.typeName
  name : f.name = g.name
  constantText : f.constantText = g.constantText

/-- The members do not differ in what is hashed of a member: its brackets, when the type is built in,
and a length inside of brackets only. -/
structure IsMemberLike (f g : Field) : Prop where
  typeName : f.typeName = g.typeName
  name : f.name = g.name
  isArray : TypeName.isBuiltin f.typeName = true → f.isArray = g.isArray
  arrayLength : TypeName.isBuiltin f.typeName = true → f.isArray = true → f.arrayLength = g.arrayLength

variable {f g : Field}

instance : Std.Refl IsConstantLike where
  refl _ := ⟨rfl, rfl, rfl⟩

instance : Std.Refl IsMemberLike where
  refl _ := ⟨rfl, rfl, fun _ => rfl, fun _ _ => rfl⟩

theorem IsConstantLike.constantSignature_eq (h : f.IsConstantLike g) :
    f.constantSignature = g.constantSignature := by
  simp [constantSignature, h.typeName, h.name, h.constantText]

theorem IsMemberLike.builtinSignature_eq (h : f.IsMemberLike g)
    (hbuiltin : TypeName.isBuiltin f.typeName = true) : f.builtinSignature = g.builtinSignature := by
  have htype : f.builtinType = g.builtinType := by
    cases harray : f.isArray with
    | false => simp [builtinType, ← h.isArray hbuiltin, harray, h.typeName]
    | true =>
      simp [builtinType, ← h.isArray hbuiltin, harray, h.typeName, ← h.arrayLength hbuiltin harray]
  rw [builtinSignature, builtinSignature, htype, h.name]

theorem IsMemberLike.complexSignature_eq (h : f.IsMemberLike g) :
    f.complexSignature = g.complexSignature := by
  funext digest
  simp [complexSignature, h.name]

end Field

structure Definition.IsLike (d e : Definition) : Prop where
  constants : List.Forall₂ Field.IsConstantLike d.constants e.constants
  members : List.Forall₂ Field.IsMemberLike d.members e.members

namespace Definition

variable {d e : Definition}

theorem IsLike.of_eq (hconstants : d.constants = e.constants) (hmembers : d.members = e.members) :
    d.IsLike e where
  constants := hconstants ▸ List.forall₂_refl d.constants
  members := hmembers ▸ List.forall₂_refl d.members

theorem IsLike.of_fields_eq (h : d.fields = e.fields) : d.IsLike e :=
  .of_eq (congrArg (List.filter _) h) (congrArg (List.filter _) h)

theorem IsLike.constantSignatures_eq (h : d.IsLike e) :
    d.constants.map Field.constantSignature = e.constants.map Field.constantSignature := by
  rw [← List.forall₂_eq_eq_eq, List.forall₂_map_left_iff, List.forall₂_map_right_iff]
  exact h.constants.imp fun f g hfg => hfg.constantSignature_eq

end Definition

namespace Bundle

variable {b b' middle after others others' : Bundle} {d d' root root' : Definition} {t : String}
  {trail : List String}

/-! The definition of a name -/

/-- No definition in the middle shows as that of the name: one that bears it has another behind it. -/
def IsHidden (middle after : Bundle) (t : String) : Prop :=
  ∀ d ∈ middle, d.name = some t → ∃ e ∈ after, e.name = some t

theorem lookup?_of_isHidden (h : IsHidden middle after t) (before : Bundle) :
    lookup? (before ++ middle ++ after) t = lookup? (before ++ after) t := by
  simp only [lookup?_append]
  cases hafter : lookup? after t with
  | some e => simp
  | none =>
    have hmiddle : lookup? middle t = none := by
      rw [lookup?_eq_none_iff] at hafter ⊢
      intro d hd hname
      obtain ⟨e, he, hbears⟩ := h d hd hname
      exact hafter e he hbears
    simp [hmiddle]

theorem lookup?_of_perm (h : others.Perm others') (hnames : (others.filterMap Definition.name).Nodup)
    (t : String) : others.lookup? t = others'.lookup? t := by
  cases hfound : others.lookup? t with
  | none =>
    rw [lookup?_eq_none_iff] at hfound
    exact (lookup?_eq_none_iff.mpr fun d hd => hfound d (h.mem_iff.mpr hd)).symm
  | some d =>
    obtain ⟨hd, hname⟩ := mem_of_lookup? hfound
    have hle : others.bearers t ≤ 1 := by
      have hcount := List.nodup_iff_count_le_one.mp hnames t
      rwa [List.count_filterMap] at hcount
    have hpos : 0 < others.bearers t := List.countP_pos_iff.mpr ⟨d, hd, by simp [hname]⟩
    have heq : others'.bearers t = others.bearers t := (h.countP_eq _).symm
    exact (lookup?_of_bearers (by omega) (h.mem_iff.mp hd) hname).symm

/-! Digests -/

theorem signature_congr {f g : Field} (hfg : f.IsMemberLike g)
    (hfound : TypeName.isBuiltin f.typeName = false → Option.Rel (fun e e' => f.typeName ∉ trail →
      b.digest (f.typeName :: trail) e = b'.digest (f.typeName :: trail) e')
      (b.lookup? f.typeName) (b'.lookup? f.typeName)) :
    b.signature trail f = b'.signature trail g := by
  unfold signature
  rw [← hfg.typeName]
  cases hbuiltin : TypeName.isBuiltin f.typeName with
  | true => simp [hfg.builtinSignature_eq hbuiltin]
  | false =>
    generalize b.lookup? f.typeName = found, b'.lookup? f.typeName = found' at hfound
    cases hfound hbuiltin with
    | none => simp
    | some hdigest =>
      by_cases hmem : f.typeName ∈ trail
      · simp [hmem]
      · simp [hmem, hdigest hmem, hfg.complexSignature_eq]

/-- Digests are the same where all that is reached is found alike, or is not found either way. -/
theorem digest_congr (hd : d.IsLike d')
    (hfound : ∀ t, b.Reaches d t → Option.Rel Definition.IsLike (b.lookup? t) (b'.lookup? t)) :
    b.digest trail d = b'.digest trail d' := by
  -- Both recursions take the same way, so one induction on the trail does for both.
  induction trail, d using Bundle.digest.induct b generalizing d' with
  | case1 trail d ih =>
    have hlines : d.members.mapM (b.signature trail) = d'.members.mapM (b'.signature trail) := by
      apply Attempts.mapM_congr
      have hmembers := (List.forall₂_and_left _ _).mpr
        ⟨fun f (hf : f ∈ d.members) => hf, hd.members⟩
      refine hmembers.imp fun f g hboth => signature_congr hboth.2 fun hbuiltin => ?_
      have hmem := Definition.typeName_mem_references hboth.1 hbuiltin
      have hrel := hfound f.typeName (.direct hmem)
      generalize b'.lookup? f.typeName = found' at hrel ⊢
      cases he : b.lookup? f.typeName with
      | none =>
        rw [he] at hrel
        cases hrel
        exact .none
      | some e =>
        rw [he] at hrel
        cases hrel with
        | some hlike =>
          exact .some fun hnew => ih f e he hnew hlike fun t ht => hfound t (.through hmem he ht)
    rw [digest_eq, digest_eq, hlines, hd.constantSignatures_eq]

/-! Fingerprints -/

/-- The name of the root does not count, nor does any definition that the root does not reach. -/
theorem fingerprint_congr (hfields : root.fields = root'.fields)
    (hfound : ∀ t, Reaches (root :: others) root t →
      lookup? (root :: others) t = lookup? (root' :: others') t) :
    fingerprint (root :: others) = fingerprint (root' :: others') := by
  have hdigest : digest (root :: others) [] root = digest (root' :: others') [] root' := by
    refine digest_congr (.of_fields_eq hfields) fun t ht => ?_
    rw [← hfound t ht]
    cases lookup? (root :: others) t with
    | none => exact .none
    | some e => exact .some (.of_fields_eq rfl)
  simp [fingerprint, hdigest]

theorem Reaches.mem_of_closed {names : List String} (h : b.Reaches d t) (hd : d.references ⊆ names)
    (hclosed : ∀ u ∈ names, ∀ e ∈ b.lookup? u, e.references ⊆ names) : t ∈ names := by
  induction h with
  | direct hmem => exact hd hmem
  | through hmem hfound _ ih => exact ih (hclosed _ (hd hmem) _ hfound)

/-- The fingerprint of a bundle depends on the fields of its root and on the definitions that the root
reaches. So the other definitions may change their order, as long as no two of them bear one name,
and some of them may make room for others where none of these shows by a name that is reached. -/
theorem fingerprint_of_reached :
    (∀ root root' others others', root.fields = root'.fields →
      (∀ t, Reaches (root :: others) root t →
        lookup? (root :: others) t = lookup? (root' :: others') t) →
      fingerprint (root :: others) = fingerprint (root' :: others')) ∧
    (∀ root others others', others.Perm others' → (others.filterMap Definition.name).Nodup →
      fingerprint (root :: others) = fingerprint (root :: others')) ∧
    (∀ root before middle middle' after,
      (∀ t, Reaches (root :: (before ++ middle ++ after)) root t →
        IsHidden middle after t ∧ IsHidden middle' after t) →
      fingerprint (root :: (before ++ middle ++ after)) =
        fingerprint (root :: (before ++ middle' ++ after))) := by
  refine ⟨fun root root' others others' => fingerprint_congr, ?_, ?_⟩
  · intro root others others' hperm hnames
    refine fingerprint_congr rfl fun t _ => ?_
    rw [lookup?_cons, lookup?_cons, lookup?_of_perm hperm hnames]
  · intro root before middle middle' after hhidden
    refine fingerprint_congr rfl fun t ht => ?_
    obtain ⟨hold, hnew⟩ := hhidden t ht
    show lookup? (root :: before ++ middle ++ after) t = lookup? (root :: before ++ middle' ++ after) t
    rw [lookup?_of_isHidden hold, lookup?_of_isHidden hnew]

/-- A type that is missing, a definition that is not reached, and one that is shadowed. -/
theorem fingerprint_of_reached_shadowed :
    let root : Definition := ⟨none, [.plain "p/A" "a", .plain "p/B" "b"]⟩
    let named : Definition := ⟨some "p/Root", [.plain "p/A" "a", .plain "p/B" "b"]⟩
    let point : Definition := ⟨some "p/A", [.plain "int32" "x"]⟩
    let unused : Definition := ⟨some "p/U", [.plain "p/Root" "r"]⟩
    let shadowed : Definition := ⟨some "p/A", []⟩
    (∀ t, Reaches [root, unused, point] root t → t ∈ ["p/A", "p/B"]) ∧
      fingerprint [root, unused, point] = .error (.missingType "p/B") ∧
      fingerprint [root, unused, point] = fingerprint [named, shadowed, point] ∧
      fingerprint [root, unused, point] = fingerprint [root, point, unused] ∧
      fingerprint [root, unused, point] = fingerprint [root, shadowed, point] := by
  intro root named point unused shadowed
  have hreached : ∀ t, Reaches [root, unused, point] root t → t ∈ ["p/A", "p/B"] :=
    fun t ht => ht.mem_of_closed (by decide) (by decide +kernel)
  have hlookup : ∀ t ∈ ["p/A", "p/B"],
      lookup? [root, unused, point] t = lookup? [named, shadowed, point] t := by
    simp [lookup?_cons, root, named, point, unused, shadowed]
  have hhidden : ∀ t ∈ ["p/A", "p/B"], IsHidden [unused] [point] t ∧ IsHidden [shadowed] [point] t := by
    simp [IsHidden, unused, shadowed, point]
  refine ⟨hreached, ?_, ?_, ?_, ?_⟩
  · have hbuiltin : TypeName.isBuiltin "p/A" = false ∧ TypeName.isBuiltin "p/B" = false ∧
        TypeName.isBuiltin "int32" = true := by decide
    simp [fingerprint, digest_eq, signature, Definition.members, Field.plain, hbuiltin, lookup?_cons,
      root, unused, point]
    rfl
  · exact fingerprint_of_reached.1 root named [unused, point] [shadowed, point] rfl
      fun t ht => hlookup t (hreached t ht)
  · exact fingerprint_of_reached.2.1 root [unused, point] [point, unused] (List.Perm.swap ..) (by decide)
  · exact fingerprint_of_reached.2.2 root [] [unused] [shadowed] [point]
      fun t ht => hhidden t (hreached t ht)

end Bundle
end MessageSchema
