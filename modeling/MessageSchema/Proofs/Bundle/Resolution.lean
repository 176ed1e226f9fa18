import MessageSchema.Bundle.Resolution
import MessageSchema.Proofs.Attempts
import MessageSchema.Proofs.TypeName

/-!
What resolution comes to. It puts full names in place of type names, each borne by exactly one
definition; where the names are full already it changes nothing and only checks this.
-/
namespace MessageSchema

namespace LookupRule

theorem ofWritten_of_isQualified {written : String} (h : TypeName.isQualified written = true)
    (package : Option String) : ofWritten package written = .exactly written := by
  simp [ofWritten, TypeName.ne_empty_of_isQualified h, h]

theorem isQualified_of_admits {package : Option String} {written name : String}
    (hne : name ≠ "") (h : (ofWritten package written).admits (some name) = true) :
    TypeName.isQualified name = true := by
  have hexactly {full : String} (hfull : (exactly full).admits (some name) = true) : name = full :=
    eq_of_beq hfull
  unfold ofWritten at h
  split at h
  · exact absurd (hexactly h) hne
  split at h
  · rename_i hslash
    rwa [hexactly h]
  split at h
  · rw [hexactly h]
    decide
  cases package with
  | some package =>
    rw [hexactly h]
    simp [TypeName.isQualified]
  | none =>
    have hsuffix : ('/' :: written.toList) <:+ name.toList := List.isSuffixOf_iff_suffix.mp h
    have hmem : '/' ∈ name.toList := hsuffix.subset List.mem_cons_self
    simpa [TypeName.isQualified] using hmem

end LookupRule

def Bundle.bearers (b : Bundle) (name : String) : Nat := b.countP fun d => d.name == some name

namespace Definition

def IsMarked (d : Definition) : Prop :=
  ∀ f ∈ d.fields, f.isComplex = !TypeName.isBuiltin f.typeName

instance (d : Definition) : Decidable d.IsMarked :=
  inferInstanceAs (Decidable (∀ f ∈ d.fields, _))

def IsQualified (d : Definition) : Prop :=
  ∀ f ∈ d.fields, f.isComplex = true → TypeName.isQualified f.typeName = true

/-- The types of complex fields are names, each of exactly one definition. -/
def IsBound (b : Bundle) (d : Definition) : Prop :=
  ∀ f ∈ d.fields, f.isComplex = true → b.bearers f.typeName = 1

end Definition

namespace Bundle

variable {b b' : Bundle} {d d' : Definition} {package : Option String} {written name : String}

theorem bearers_cons (d : Definition) (b : Bundle) (name : String) :
    bearers (d :: b) name = bearers b name + if d.name = some name then 1 else 0 := by
  simp only [bearers, List.countP_cons, beq_iff_eq]

theorem bearers_eq_one_iff :
    b.bearers name = 1 ↔ ∃ d, b.filter (fun d => d.name == some name) = [d] := by
  rw [bearers, List.countP_eq_length_filter, List.length_eq_one_iff]

theorem exists_of_bearers_eq_one (h : b.bearers name = 1) : ∃ d ∈ b, d.name = some name := by
  obtain ⟨d, hd⟩ := bearers_eq_one_iff.mp h
  have hmem : d ∈ b.filter fun d => d.name == some name := by simp [hd]
  exact ⟨d, (List.mem_filter.mp hmem).1, by simpa using (List.mem_filter.mp hmem).2⟩

theorem eq_of_bearers_eq_one (h : b.bearers name = 1) (hd : d ∈ b) (hname : d.name = some name)
    (hd' : d' ∈ b) (hname' : d'.name = some name) : d = d' := by
  obtain ⟨e, he⟩ := bearers_eq_one_iff.mp h
  have hall : ∀ a ∈ b, a.name = some name → a = e := by
    intro a ha hbears
    have hmem : a ∈ b.filter fun d => d.name == some name :=
      List.mem_filter.mpr ⟨ha, by simp [hbears]⟩
    rwa [he, List.mem_singleton] at hmem
  rw [hall d hd hname, hall d' hd' hname']

theorem fullName_eq_ok_iff : b.fullName package written = .ok name ↔
    ∃ d, b.candidates (.ofWritten package written) = [d] ∧ d.name = some name ∧ name ≠ "" := by
  rw [fullName]
  cases b.candidates (.ofWritten package written) with
  | nil => simp
  | cons d others =>
    cases others with
    | cons e others => simp
    | nil =>
      cases hname : d.name with
      | none => simp [hname]
      | some name' =>
        by_cases hempty : name' = ""
        · subst hempty
          simp [hname, eq_comm]
        · simp only [if_neg hempty, List.cons.injEq, and_true, exists_eq_left', hname,
            Option.some.injEq, Except.ok.injEq]
          constructor
          · rintro rfl
            exact ⟨rfl, hempty⟩
          · exact fun h => h.1

/-- A full name is one that exactly one definition bears. -/
theorem fullName_spec (h : b.fullName package written = .ok name) :
    TypeName.isQualified name = true ∧ b.bearers name = 1 := by
  obtain ⟨d, hcandidates, hname, hne⟩ := fullName_eq_ok_iff.mp h
  have hadmits : (LookupRule.ofWritten package written).admits (some name) = true := by
    have hmem : d ∈ b.candidates (.ofWritten package written) := by simp [hcandidates]
    rw [← hname]
    exact (List.mem_filter.mp hmem).2
  refine ⟨LookupRule.isQualified_of_admits hne hadmits, bearers_eq_one_iff.mpr ⟨d, ?_⟩⟩
  calc b.filter (fun d => d.name == some name)
      = (b.candidates (.ofWritten package written)).filter (fun d => d.name == some name) := by
        rw [candidates, List.filter_filter]
        refine List.filter_congr fun e _ => ?_
        by_cases he : e.name = some name
        · simp [he, hadmits]
        · simp [he]
    _ = [d] := by simp [hcandidates, hname]

theorem fullName_of_isQualified (hslash : TypeName.isQualified written = true) :
    b.fullName package written = .ok name ↔ name = written ∧ b.bearers written = 1 := by
  have hne := TypeName.ne_empty_of_isQualified hslash
  have hcandidates : b.candidates (.ofWritten package written) =
      b.filter fun d => d.name == some written := by
    rw [LookupRule.ofWritten_of_isQualified hslash, candidates]
    refine List.filter_congr fun d _ => ?_
    cases hname : d.name with
    | none => simp [LookupRule.admits, hne.symm]
    | some name => simp [LookupRule.admits]
  rw [fullName_eq_ok_iff, hcandidates, bearers_eq_one_iff]
  constructor
  · rintro ⟨d, hd, hname, -⟩
    have hmem : d ∈ b.filter fun d => d.name == some written := by simp [hd]
    have hwritten : d.name = some written := by simpa using (List.mem_filter.mp hmem).2
    exact ⟨Option.some.inj (hname.symm.trans hwritten), d, hd⟩
  · rintro ⟨rfl, d, hd⟩
    have hmem : d ∈ b.filter fun d => d.name == some name := by simp [hd]
    have hname : d.name = some name := by simpa using (List.mem_filter.mp hmem).2
    exact ⟨d, hd, hname, hne⟩

theorem resolveField_eq_ok_iff {f f' : Field} : b.resolveField package f = .ok f' ↔
    (f.isComplex = false ∧ f' = f) ∨ (f.isComplex = true ∧
      ∃ typeName, b.fullName package f.typeName = .ok typeName ∧ f' = { f with typeName }) := by
  rw [resolveField]
  cases f.isComplex with
  | false => simp [eq_comm]
  | true => simp [Attempts.map_eq_ok_iff, @eq_comm _ f']

theorem resolveDefinition_eq_ok_iff : b.resolveDefinition d = .ok d' ↔
    ∃ fields, d.fields.mapM (b.resolveField d.package?) = .ok fields ∧ d' = { d with fields } := by
  rw [resolveDefinition, Attempts.map_eq_ok_iff]
  exact exists_congr fun fields => and_congr_right fun _ => eq_comm

/-! Names do not change -/

theorem name_resolveDefinition (h : b.resolveDefinition d = .ok d') : d'.name = d.name := by
  obtain ⟨fields, -, rfl⟩ := resolveDefinition_eq_ok_iff.mp h
  rfl

theorem map_name_resolve (h : b.resolve = .ok b') :
    b'.map Definition.name = b.map Definition.name := by
  rw [resolve, Attempts.mapM_eq_ok_iff] at h
  rw [← List.forall₂_eq_eq_eq, List.forall₂_map_left_iff, List.forall₂_map_right_iff]
  exact h.flip.imp fun d d' hd => name_resolveDefinition hd

theorem bearers_resolve (h : b.resolve = .ok b') (name : String) :
    b'.bearers name = b.bearers name := by
  have hcount (ds : Bundle) :
      ds.bearers name = (ds.map Definition.name).countP (· == some name) := by
    rw [List.countP_map]
    rfl
  rw [hcount, hcount, map_name_resolve h]

/-! Full names do not change -/

theorem isQualified_of_resolveDefinition (h : b.resolveDefinition d = .ok d') :
    d'.IsQualified ∧ d'.IsBound b := by
  obtain ⟨fields, hfields, rfl⟩ := resolveDefinition_eq_ok_iff.mp h
  have hspec : ∀ f ∈ fields, f.isComplex = true →
      TypeName.isQualified f.typeName = true ∧ b.bearers f.typeName = 1 := by
    intro f hf hcomplex
    obtain ⟨g, -, hg⟩ := Attempts.exists_source_of_mapM_eq_ok hfields f hf
    rcases resolveField_eq_ok_iff.mp hg with ⟨hsimple, rfl⟩ | ⟨-, typeName, hname, rfl⟩
    · simp [hsimple] at hcomplex
    · exact fullName_spec hname
  exact ⟨fun f hf hcomplex => (hspec f hf hcomplex).1, fun f hf hcomplex => (hspec f hf hcomplex).2⟩

theorem isMarked_of_resolveDefinition (h : b.resolveDefinition d = .ok d') (hd : d.IsMarked) :
    d'.IsMarked := by
  obtain ⟨fields, hfields, rfl⟩ := resolveDefinition_eq_ok_iff.mp h
  intro f hf
  obtain ⟨g, hg, hresolve⟩ := Attempts.exists_source_of_mapM_eq_ok hfields f hf
  rcases resolveField_eq_ok_iff.mp hresolve with ⟨-, rfl⟩ | ⟨hcomplex, typeName, hname, rfl⟩
  · exact hd f hg
  -- The new type is a full name, and those are not built in.
  · simp [hcomplex, TypeName.isBuiltin_of_isQualified (fullName_spec hname).1]

theorem resolveDefinition_of_isQualified (h : d.IsQualified) :
    b.resolveDefinition d = .ok d' ↔ d' = d ∧ d.IsBound b := by
  have hfields (fields : List Field) : d.fields.mapM (b.resolveField d.package?) = .ok fields ↔
      fields = d.fields ∧ d.IsBound b := by
    apply Attempts.mapM_eq_ok_iff_of_fixed
    intro f hf f'
    rw [resolveField_eq_ok_iff]
    by_cases hcomplex : f.isComplex = true
    · have hslash := h f hf hcomplex
      constructor
      · rintro (⟨hsimple, -⟩ | ⟨-, typeName, hname, rfl⟩)
        · simp [hsimple] at hcomplex
        · obtain ⟨rfl, hbound⟩ := (fullName_of_isQualified hslash).mp hname
          exact ⟨rfl, fun _ => hbound⟩
      · rintro ⟨rfl, hbound⟩
        have hname : b.fullName d.package? f'.typeName = .ok f'.typeName :=
          (fullName_of_isQualified hslash).mpr ⟨rfl, hbound hcomplex⟩
        exact .inr ⟨hcomplex, _, hname, rfl⟩
    · simp [hcomplex]
  simp only [resolveDefinition_eq_ok_iff, hfields]
  constructor
  · rintro ⟨fields, ⟨rfl, hbound⟩, rfl⟩
    exact ⟨rfl, hbound⟩
  · rintro ⟨rfl, hbound⟩
    exact ⟨_, ⟨rfl, hbound⟩, rfl⟩

/-- With full names, resolution is a test that changes nothing. -/
theorem resolve_of_isQualified (h : ∀ d ∈ b, d.IsQualified) :
    b.resolve = .ok b' ↔ b' = b ∧ ∀ d ∈ b, d.IsBound b :=
  Attempts.mapM_eq_ok_iff_of_fixed fun d hd _ => resolveDefinition_of_isQualified (h d hd)

/-! Resolved bundles -/

theorem isQualified_of_resolve (h : b.resolve = .ok b') :
    ∀ d ∈ b', d.IsQualified ∧ d.IsBound b' := by
  intro d hd
  obtain ⟨e, -, hresolve⟩ := Attempts.exists_source_of_mapM_eq_ok h d hd
  obtain ⟨hqualified, hbound⟩ := isQualified_of_resolveDefinition hresolve
  refine ⟨hqualified, fun f hf hcomplex => ?_⟩
  rw [bearers_resolve h]
  exact hbound f hf hcomplex

theorem isMarked_of_resolve (hmarked : ∀ d ∈ b, d.IsMarked) (h : b.resolve = .ok b') :
    ∀ d ∈ b', d.IsMarked := by
  intro d hd
  obtain ⟨e, he, hresolve⟩ := Attempts.exists_source_of_mapM_eq_ok h d hd
  exact isMarked_of_resolveDefinition hresolve (hmarked e he)

theorem resolve_of_resolve (h : b.resolve = .ok b') : b'.resolve = .ok b' :=
  (resolve_of_isQualified fun d hd => (isQualified_of_resolve h d hd).1).mpr
    ⟨rfl, fun d hd => (isQualified_of_resolve h d hd).2⟩

/-- What comes out of resolution has full names for the types of all complex fields, by whichever
rule they were found, and is left as it is when it is resolved again. -/
theorem resolve_idempotent (h : b.resolve = .ok b') :
    (∀ d ∈ b', ∀ f ∈ d.fields, f.isComplex = true → '/' ∈ f.typeName.toList) ∧
      b'.resolve = .ok b' := by
  refine ⟨fun d hd f hf hcomplex => ?_, resolve_of_resolve h⟩
  have hslash : TypeName.isQualified f.typeName = true :=
    (isQualified_of_resolve h d hd).1 f hf hcomplex
  simpa [TypeName.isQualified] using hslash

/-- A short name without a package to look in, the standard header, and a built-in word as the type
of a complex field, in a package whose name ends with a slash. -/
theorem resolve_idempotent_odd_names :
    let number : Field := { typeName := "int32", name := "n", isComplex := true }
    let others : Bundle := [⟨some "a//int32", []⟩, ⟨some "/Y", []⟩, ⟨some "std_msgs/Header", []⟩]
    let b : Bundle :=
      ⟨none, [.plain "Y" "y", .plain "Header" "h"]⟩ :: ⟨some "a//X", [number]⟩ :: others
    let b' : Bundle :=
      ⟨none, [.plain "/Y" "y", .plain "std_msgs/Header" "h"]⟩ ::
        ⟨some "a//X", [{ number with typeName := "a//int32" }]⟩ :: others
    b.resolve = .ok b' ∧ b'.resolve = .ok b' := by
  intro number others b b'
  have h : b.resolve = .ok b' := by
    subst b b' others number
    rfl
  exact ⟨h, (resolve_idempotent h).2⟩

end Bundle
end MessageSchema
