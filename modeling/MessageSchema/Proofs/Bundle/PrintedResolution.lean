import MessageSchema.Proofs.Bundle.Parsed
import MessageSchema.Proofs.Bundle.Rearranging
import MessageSchema.Proofs.Bundle.RoundTrip

/-!
Resolution before printing and after reading. The canonical form of a bundle has the names of the
bundle and the types of its fields in another order, so it resolves to the canonical form of what
the bundle resolves to. A resolved bundle is printed with full names, which are read as they are.
-/
namespace MessageSchema

theorem Field.IsWritable.withTypeName {f : Field} {name : String} (h : f.IsWritable)
    (hcomplex : f.isComplex = true) (hslash : TypeName.isQualified name = true)
    (htoken : TypeName.IsToken name) : IsWritable { f with typeName := name } := by
  have hspelling : name ≠ "char" ∧ name ≠ "byte" := by
    constructor <;> rintro rfl <;> revert hslash <;> decide
  exact
    { h with
      typeName := htoken
      constant := fun hconst => ⟨hspelling.1, hspelling.2, (h.constant hconst).2.2⟩
      member := h.member
      isComplex := fun _ => by simp [hcomplex, TypeName.isBuiltin_of_isQualified hslash]
      single := fun hmember hsingle => ⟨(h.single hmember hsingle).1, hspelling⟩ }

namespace Bundle

variable {b c : Bundle} {package : Option String} {f f' : Field}

theorem isConstant_of_resolveField (h : b.resolveField package f = .ok f') :
    f'.isConstant = f.isConstant := by
  rcases resolveField_eq_ok_iff.mp h with ⟨-, rfl⟩ | ⟨-, typeName, -, rfl⟩ <;> rfl

theorem resolveField_bareConstant (hmarked : f.isComplex = !TypeName.isBuiltin f.typeName) :
    b.resolveField package f.bareConstant = (b.resolveField package f).map Field.bareConstant := by
  have hcomplex : f.bareConstant.isComplex = f.isComplex := hmarked.symm
  rw [resolveField, resolveField, hcomplex]
  cases hkind : f.isComplex with
  | false => rfl
  | true =>
    have htype : f.bareConstant.typeName = f.typeName := rfl
    rw [if_pos rfl, if_pos rfl, htype]
    cases hname : b.fullName package f.typeName with
    | error e => rfl
    | ok name =>
      have hbuiltin := TypeName.isBuiltin_of_isQualified (fullName_spec hname).1
      simp [Except.map, Field.bareConstant, Field.plain, Field.asConstant, Field.constantText,
        hbuiltin, hmarked ▸ hkind]

/-! Canonical forms -/

variable {b' : Bundle} {d d' : Definition}

theorem map_name_canonical (b : Bundle) :
    (canonical b).map Definition.name = b.map Definition.name := by
  rw [canonical, List.map_map]
  rfl

theorem resolveDefinition_canonical (hmarked : d.IsMarked) (h : b.resolveDefinition d = .ok d') :
    (canonical b).resolveDefinition d.canonical = .ok d'.canonical := by
  obtain ⟨fields, hfields, rfl⟩ := resolveDefinition_eq_ok_iff.mp h
  rw [Attempts.mapM_eq_ok_iff] at hfields
  have hall := (List.forall₂_and_left _ _).mpr ⟨hmarked, hfields⟩
  have hconst : List.Forall₂ _ d.constants (fields.filter fun f => f.isConstant) :=
    List.rel_filter (fun f f' hf => by simp [isConstant_of_resolveField hf.2]) hall
  have hmember : List.Forall₂ _ d.members (fields.filter fun f => !f.isConstant) :=
    List.rel_filter (fun f f' hf => by simp [isConstant_of_resolveField hf.2]) hall
  refine resolveDefinition_eq_ok_iff.mpr ⟨_, ?_, rfl⟩
  rw [resolveField_congr (.of_eq (map_name_canonical b)), Attempts.mapM_eq_ok_iff]
  refine List.rel_append ?_ (hmember.imp fun f f' hf => hf.2)
  rw [List.forall₂_map_left_iff, List.forall₂_map_right_iff]
  refine hconst.imp fun f f' hf => ?_
  rw [resolveField_bareConstant hf.1]
  exact congrArg (Except.map Field.bareConstant) hf.2

theorem exists_of_resolveDefinition_canonical (hmarked : d.IsMarked)
    (h : (canonical b).resolveDefinition d.canonical = .ok d') :
    ∃ e, b.resolveDefinition d = .ok e := by
  obtain ⟨fields, hfields, -⟩ := resolveDefinition_eq_ok_iff.mp h
  rw [resolveField_congr (.of_eq (map_name_canonical b))] at hfields
  have hresult := Attempts.exists_result_of_mapM_eq_ok hfields
  have hall : ∀ f ∈ d.fields, ∃ f', b.resolveField d.package? f = .ok f' := by
    intro f hf
    cases hkind : f.isConstant with
    | true =>
      have hmem : f.bareConstant ∈ d.canonical.fields :=
        List.mem_append_left _ (List.mem_map_of_mem (List.mem_filter.mpr ⟨hf, hkind⟩))
      obtain ⟨g, -, hg⟩ := hresult _ hmem
      rw [resolveField_bareConstant (hmarked f hf)] at hg
      obtain ⟨f', hf', -⟩ := Attempts.map_eq_ok_iff.mp hg
      exact ⟨f', hf'⟩
    | false =>
      have hmem : f ∈ d.canonical.fields :=
        List.mem_append_right _ (List.mem_filter.mpr ⟨hf, by simp [hkind]⟩)
      obtain ⟨g, -, hg⟩ := hresult f hmem
      exact ⟨g, hg⟩
  obtain ⟨fields', hfields'⟩ := Attempts.exists_mapM_eq_ok_iff.mpr hall
  exact ⟨_, resolveDefinition_eq_ok_iff.mpr ⟨fields', hfields', rfl⟩⟩

/-- The canonical form resolves to the canonical form. -/
theorem resolve_canonical (hmarked : ∀ d ∈ b, d.IsMarked) (h : b.resolve = .ok b') :
    (canonical b).resolve = .ok (canonical b') := by
  rw [resolve, Attempts.mapM_eq_ok_iff] at h ⊢
  have hall := (List.forall₂_and_left _ _).mpr ⟨hmarked, h⟩
  refine List.forall₂_map_left_iff.mpr (List.forall₂_map_right_iff.mpr ?_)
  exact hall.imp fun d d' hd => resolveDefinition_canonical hd.1 hd.2

theorem exists_of_resolve_canonical (hmarked : ∀ d ∈ b, d.IsMarked)
    (h : (canonical b).resolve = .ok b') : ∃ e, b.resolve = .ok e := by
  refine Attempts.exists_mapM_eq_ok_iff.mpr fun d hd => ?_
  obtain ⟨d', -, hd'⟩ := Attempts.exists_result_of_mapM_eq_ok h _ (List.mem_map_of_mem hd)
  exact exists_of_resolveDefinition_canonical (hmarked d hd) hd'

/-! Resolved bundles -/

variable {root : Definition} {others : Bundle}

theorem isWritable_of_resolveField (hf : f.IsWritable)
    (htoken : ∀ d ∈ b, ∀ name, d.name = some name → TypeName.IsToken name)
    (h : b.resolveField package f = .ok f') : f'.IsWritable := by
  rcases resolveField_eq_ok_iff.mp h with ⟨-, rfl⟩ | ⟨hcomplex, name, hname, rfl⟩
  · exact hf
  · obtain ⟨hslash, hbearers⟩ := fullName_spec hname
    obtain ⟨e, he, hbears⟩ := exists_of_bearers_eq_one hbearers
    exact hf.withTypeName hcomplex hslash (htoken e he name hbears)

theorem isWritable_of_resolve (h : IsWritable root others)
    (htoken : ∀ d ∈ others, ∀ name, d.name = some name → TypeName.IsToken name)
    (hresolve : resolve (root :: others) = .ok b') :
    ∃ root' others', b' = root' :: others' ∧ IsWritable root' others' := by
  have hnames := map_name_resolve hresolve
  cases b' with
  | nil => simp at hnames
  | cons root' others' =>
    obtain ⟨hroot, hothers⟩ := List.cons.inj hnames
    refine ⟨root', others', rfl, hroot.trans h.root_name, fun d' hd' => ?_, fun d' hd' f' hf' => ?_⟩
    · obtain ⟨d, hd, hname⟩ := List.mem_map.mp (hothers ▸ List.mem_map_of_mem hd')
      exact hname ▸ h.name d hd
    · obtain ⟨d, hd, hd'⟩ := Attempts.exists_source_of_mapM_eq_ok hresolve d' hd'
      obtain ⟨fields, hfields, rfl⟩ := resolveDefinition_eq_ok_iff.mp hd'
      obtain ⟨f, hf, hfield⟩ := Attempts.exists_source_of_mapM_eq_ok hfields f' hf'
      refine isWritable_of_resolveField (h.fields d hd f hf) (List.forall_mem_cons.mpr ⟨?_, htoken⟩)
        hfield
      simp [h.root_name]

theorem isDistinct_of_nodup_name (h : (b.map Definition.name).Nodup) : b.IsDistinct := by
  rw [List.Nodup, List.pairwise_map] at h
  refine h.imp fun hne => ?_
  rw [Definition.beq_eq, beq_false_of_ne hne.symm, Bool.false_and]

/-- The canonical text of a writable bundle is read as its canonical form. -/
theorem IsWritable.parse_print_eq_resolve (h : IsWritable root others)
    (hdistinct : (others.map Definition.name).Nodup) :
    parse {} (print (root :: others)) = resolve (canonical (root :: others)) := by
  have hread : ∀ d ∈ root :: others, d.IsReadable := fun d hd =>
    { typeName := fun f hf => (h.fields d hd f hf).typeName
      member := fun f hf => (h.fields d hd f hf).isDeclarable }
  have hnamed : ∀ d ∈ others, ∃ name, d.name = some name ∧ name.toList ≠ [] := by
    intro d hd
    obtain ⟨name, hname, hne, -⟩ := h.name d hd
    exact ⟨name, hname, hne⟩
  have hnames : ((canonical (root :: others)).map Definition.name).Nodup := by
    rw [map_name_canonical, List.map_cons, List.nodup_cons, h.root_name]
    refine ⟨fun hmem => ?_, hdistinct⟩
    obtain ⟨d, hd, hnone⟩ := List.mem_map.mp hmem
    obtain ⟨name, hname, -⟩ := hnamed d hd
    simp [hnone] at hname
  have hwritten : ofTextAsWritten (print (root :: others)) = .ok (canonical (root :: others)) := by
    rw [ofTextAsWritten_print h.isLegible hread hnamed, h.reread_eq_canonical,
      eraseDups_eq_self_iff.mpr (isDistinct_of_nodup_name hnames)]
  simp only [parse, ofText, hwritten, Attempts.ok_bind]
  rfl

/-- Printing commutes with resolution. A bundle that resolves can be printed before or after it is
resolved: either text is read as the canonical form of the resolved bundle. When it does not resolve,
its text cannot be read. -/
theorem parse_print_of_resolveInPlace (h : IsWritable root others)
    (hmarked : ∀ d ∈ root :: others, d.IsMarked) (hdistinct : (others.map Definition.name).Nodup)
    (htoken : ∀ d ∈ others, ∀ name, d.name = some name → TypeName.IsToken name) :
    match resolveInPlace.run (root :: others) with
    | .ok _ resolved => parse {} (print (root :: others)) = .ok (canonical resolved) ∧
        parse {} (print resolved) = .ok (canonical resolved)
    | .error _ _ => ∃ e, parse {} (print (root :: others)) = .error e := by
  rw [run_resolveInPlace, h.parse_print_eq_resolve hdistinct]
  cases hresolve : resolve (root :: others) with
  | ok resolved =>
    obtain ⟨root', others', rfl, hwritable⟩ := isWritable_of_resolve h htoken hresolve
    have hnames : others'.map Definition.name = others.map Definition.name :=
      (List.cons.inj (map_name_resolve hresolve)).2
    refine ⟨resolve_canonical hmarked hresolve, ?_⟩
    rw [hwritable.parse_print_eq_resolve (by rwa [hnames])]
    exact resolve_canonical (isMarked_of_resolve hmarked hresolve) (resolve_of_resolve hresolve)
  | error error =>
    cases hcanonical : resolve (canonical (root :: others)) with
    | ok resolved =>
      obtain ⟨b', hb'⟩ := exists_of_resolve_canonical hmarked hcanonical
      cases hresolve.symm.trans hb'
    | error e => exact ⟨e, rfl⟩

/-- A constant behind a reference, and a bundle with a reference to nothing. -/
theorem parse_print_of_resolveInPlace_point :
    let limit : Field := (Field.plain "int8" "LIMIT").asLiteral (.int (-1))
    let point : Definition := ⟨some "pkg/Point", [.plain "float64" "x"]⟩
    let written : Definition := ⟨none, [.plain "Point" "origin", limit]⟩
    let resolved : Definition := ⟨none, [.plain "pkg/Point" "origin", limit]⟩
    let dangling : Definition := ⟨none, [.plain "Pose" "pose"]⟩
    IsWritable written [point] ∧ resolveInPlace.run [written, point] = .ok () [resolved, point] ∧
      parse {} (print [written, point]) = .ok (canonical [resolved, point]) ∧
      parse {} (print [resolved, point]) = .ok (canonical [resolved, point]) ∧
      IsWritable dangling [point] ∧ ∃ e, parse {} (print [dangling, point]) = .error e := by
  intro limit point written resolved dangling
  have hwritable : IsWritable written [point] := by decide +kernel
  have hrun : resolveInPlace.run [written, point] = .ok () [resolved, point] := by
    simp only [written, resolved, point, limit]
    rfl
  have hread := parse_print_of_resolveInPlace hwritable (by decide) (by decide) (by decide +kernel)
  have hdangling : IsWritable dangling [point] := by decide +kernel
  have hfails : resolveInPlace.run [dangling, point] =
      .error (.missingType "Pose") [dangling, point] := by
    simp only [dangling, point]
    rfl
  have hunread := parse_print_of_resolveInPlace hdangling (by decide) (by decide) (by decide +kernel)
  rw [hrun] at hread
  rw [hfails] at hunread
  exact ⟨hwritable, hrun, hread.1, hread.2, hdangling, hunread⟩

end Bundle
end MessageSchema
