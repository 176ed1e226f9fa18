import MessageSchema.Proofs.Bundle.Candidates
import MessageSchema.Proofs.Bundle.Parsed

/-!
Repetitions after resolution. Repeated definitions are dropped as they are written, before any type
name is resolved. So two definitions of one name can still come out equal: those that differ only
in that one has a full type name where the other has the short name for it.
-/
namespace MessageSchema

namespace Bundle

variable {b b' : Bundle} {d d' e e' : Definition} {f f' g g' : Field}
  {written written' name name' short full text : String} {options : ReadOptions}

/-- A name without a slash that means, where it is written in the definition `d`, the definition of
the full name. -/
def IsShortFor (b : Bundle) (d : Definition) (short full : String) : Prop :=
  '/' ∉ short.toList ∧ b.Names d short full

def IsRespelled (b : Bundle) (d : Definition) (f g : Field) : Prop :=
  g = { f with typeName := g.typeName } ∧ (f.typeName = g.typeName ∨ f.isComplex = true ∧
    (b.IsShortFor d f.typeName g.typeName ∨ b.IsShortFor d g.typeName f.typeName))

/-- Two definitions of one name whose fields agree up to the spelling of complex types. -/
def AreSpellings (b : Bundle) (d e : Definition) : Prop :=
  d.name = e.name ∧ List.Forall₂ (b.IsRespelled d) d.fields e.fields

theorem Names.unique (h : b.Names d written name) (h' : b.Names d written name') :
    name = name' := by
  rw [← fullName_eq_ok_iff_names] at h h'
  exact Except.ok.inj (h.symm.trans h')

theorem Names.isQualified (h : b.Names d written name) : TypeName.isQualified name = true :=
  (fullName_spec (fullName_eq_ok_iff_names.mpr h)).1

theorem Names.eq_of_slash (h : b.Names d written name) (hslash : '/' ∈ written.toList) :
    name = written := by
  rw [← fullName_eq_ok_iff_names] at h
  exact ((fullName_of_isQualified (Definition.isQualified_iff.mpr hslash)).mp h).1

theorem Names.exists_before (h : b.Names d written name) (hshort : '/' ∉ written.toList) :
    ∃ before, name = before ++ "/" ++ written := by
  obtain ⟨e, ⟨hmeans, -⟩, hname, hne⟩ := h
  cases hmeans with
  | empty hempty =>
    rcases hempty with hnone | hempty
    · cases hname.symm.trans hnone
    · exact absurd (Option.some.inj (hname.symm.trans hempty)) hne
  | full hslash _ => exact absurd hslash hshort
  | header hheader => exact ⟨"std_msgs", Option.some.inj (hname.symm.trans hheader)⟩
  | @inPackage _ package _ _ _ hpackage =>
    exact ⟨package, Option.some.inj (hname.symm.trans hpackage)⟩
  | @anywhere _ before _ _ _ hany => exact ⟨before, Option.some.inj (hname.symm.trans hany)⟩

/-- Two type names mean the same exactly when they are the same or one is short for the other. -/
theorem Names.eq_iff (h : b.Names d written name) (h' : b.Names d written' name') :
    name = name' ↔
      written = written' ∨ b.IsShortFor d written written' ∨ b.IsShortFor d written' written := by
  constructor
  · rintro rfl
    by_cases hslash : '/' ∈ written.toList <;> by_cases hslash' : '/' ∈ written'.toList
    · exact .inl ((h.eq_of_slash hslash).symm.trans (h'.eq_of_slash hslash'))
    · obtain rfl := h.eq_of_slash hslash
      exact .inr (.inr ⟨hslash', h'⟩)
    · obtain rfl := h'.eq_of_slash hslash'
      exact .inr (.inl ⟨hslash, h⟩)
    · obtain ⟨before, rfl⟩ := h.exists_before hslash
      obtain ⟨before', heq⟩ := h'.exists_before hslash'
      exact .inl (TypeName.short_unique hslash hslash' heq)
  · rintro (rfl | ⟨-, hfull⟩ | ⟨-, hfull⟩)
    · exact h.unique h'
    · have hslash' := Definition.isQualified_iff.mp hfull.isQualified
      rw [h'.eq_of_slash hslash', h.unique hfull]
    · have hslash := Definition.isQualified_iff.mp hfull.isQualified
      rw [h.eq_of_slash hslash, h'.unique hfull]

theorem withTypeName_eq_iff : ({ f with typeName := name } : Field) = { g with typeName := name' } ↔
    g = { f with typeName := g.typeName } ∧ name = name' := by
  cases f
  cases g
  simp only [Field.mk.injEq, true_and]
  constructor
  · rintro ⟨rfl, h⟩
    simp [h]
  · rintro ⟨h, rfl⟩
    simp [h]

theorem IsRespelled.isComplex (h : b.IsRespelled d f g) : f.isComplex = g.isComplex := by
  rw [h.1]

theorem isRespelled_iff_of_simple (hf : f.isComplex = false) : b.IsRespelled d f g ↔ f = g := by
  constructor
  · rintro ⟨hagree, htype | ⟨hcomplex, -⟩⟩
    · rw [hagree, ← htype]
    · cases hf.symm.trans hcomplex
  · rintro rfl
    exact ⟨rfl, .inl rfl⟩

/-- Resolution makes two fields equal exactly when they agree up to spelling. -/
theorem resolveField_eq_iff (hf : b.resolveField d.package? f = .ok f')
    (hg : b.resolveField d.package? g = .ok g') : f' = g' ↔ b.IsRespelled d f g := by
  rcases resolveField_eq_ok_iff.mp hf with ⟨hsimple, rfl⟩ | ⟨hcomplex, name, hname, rfl⟩ <;>
    rcases resolveField_eq_ok_iff.mp hg with ⟨hsimple', rfl⟩ | ⟨hcomplex', name', hname', rfl⟩
  · exact (isRespelled_iff_of_simple hsimple).symm
  -- resolution does not make a field complex, nor does another spelling
  · refine iff_of_false (fun heq => ?_) (fun h => ?_)
    · simpa [hsimple, hcomplex'] using congrArg Field.isComplex heq
    · simpa [hsimple, hcomplex'] using h.isComplex
  · refine iff_of_false (fun heq => ?_) (fun h => ?_)
    · simpa [hcomplex, hsimple'] using congrArg Field.isComplex heq
    · simpa [hcomplex, hsimple'] using h.isComplex
  · rw [fullName_eq_ok_iff_names] at hname hname'
    rw [withTypeName_eq_iff, hname.eq_iff hname', IsRespelled]
    simp [hcomplex]

theorem resolveDefinition_eq_iff (hd : b.resolveDefinition d = .ok d')
    (he : b.resolveDefinition e = .ok e') : d' = e' ↔ b.AreSpellings d e := by
  obtain ⟨fields, hfields, rfl⟩ := resolveDefinition_eq_ok_iff.mp hd
  obtain ⟨fields', hfields', rfl⟩ := resolveDefinition_eq_ok_iff.mp he
  rw [Definition.mk.injEq, AreSpellings]
  refine and_congr_right fun hname => ?_
  have hpackage : e.package? = d.package? := by
    rw [Definition.package?, ← hname, Definition.package?]
  rw [hpackage] at hfields'
  exact Attempts.results_eq_iff (fun _ _ _ _ => resolveField_eq_iff) hfields hfields'

theorem nodup_resolve_iff (h : b.resolve = .ok b') :
    b'.Nodup ↔ b.Pairwise fun d e => ¬ b.AreSpellings d e :=
  Attempts.pairwise_results_iff (fun _ _ _ _ hd he => (resolveDefinition_eq_iff hd he).not) h

theorem nodup_of_ofTextAsWritten (h : ofTextAsWritten text = .ok b) : b.Nodup := by
  have hfree : ∀ d ∈ b, d.IsLiteralFree := fun d hd =>
    (isParsed_of_ofTextAsWritten h d hd).isLiteralFree
  rw [← isDistinct_iff_nodup hfree]
  obtain ⟨ds, -, rfl⟩ := Attempts.map_eq_ok_iff.mp h
  exact isDistinct_eraseDups ds

/-- Definitions are all different as they are written. They are all different after resolution, too,
exactly when no two of them are spellings of one another. -/
theorem nodup_iff_of_parse (h : parse options text = .ok b) :
    ∃ written, parse { options with keepsTypeNames := true } text = .ok written ∧
      written.Nodup ∧ (b.Nodup ↔ options.keepsTypeNames = true ∨
        written.Pairwise fun d e => ¬ written.AreSpellings d e) := by
  obtain ⟨dialect, keepsTypeNames⟩ := options
  cases dialect with
  | ros2 => cases h
  | unknown _ => cases h
  | ros1 =>
    obtain ⟨written, hwritten, hfinish⟩ := Attempts.bind_eq_ok_iff.mp h
    have hnodup := nodup_of_ofTextAsWritten hwritten
    refine ⟨written, Attempts.bind_eq_ok_iff.mpr ⟨written, hwritten, rfl⟩, hnodup, ?_⟩
    cases keepsTypeNames with
    | true =>
      obtain rfl := Attempts.pure_eq_ok_iff.mp hfinish
      simp [hnodup]
    | false => simpa using nodup_resolve_iff hfinish

/-- A second `pkg/A`, with a full name where the first one has the short name for it. -/
theorem not_nodup_of_two_spellings :
    ¬ ∀ (options : ReadOptions) (text : String) (b : Bundle), options.dialect = .ros1 →
      parse options text = .ok b → b.Nodup := by
  intro h
  have hpoint := h {}
    "int32 x\n===\nMSG: pkg/A\nB b\n===\nMSG: pkg/A\npkg/B b\n===\nMSG: pkg/B\nint32 y"
    [ { name := none, fields := [.plain "int32" "x"] },
      { name := some "pkg/A", fields := [.plain "pkg/B" "b"] },
      { name := some "pkg/A", fields := [.plain "pkg/B" "b"] },
      { name := some "pkg/B", fields := [.plain "int32" "y"] } ] rfl rfl
  simp at hpoint

/-- As written the two definitions of `pkg/A` are different, but spellings of one another. -/
theorem nodup_iff_of_two_spellings :
    let b : Bundle :=
      [ { name := some "pkg/A", fields := [.plain "pkg/B" "b"] },
        { name := some "pkg/A", fields := [.plain "pkg/B" "b"] },
        { name := some "pkg/B", fields := [] } ]
    parse {} "MSG: pkg/A\nB b\n=\nMSG: pkg/A\npkg/B b\n=\nMSG: pkg/B" = .ok b ∧ ¬ b.Nodup ∧
      ∃ written, written.Nodup ∧ (¬ written.Pairwise fun d e => ¬ written.AreSpellings d e) ∧
        parse { keepsTypeNames := true } "MSG: pkg/A\nB b\n=\nMSG: pkg/A\npkg/B b\n=\nMSG: pkg/B" =
          .ok written := by
  intro b
  have h : parse {} "MSG: pkg/A\nB b\n=\nMSG: pkg/A\npkg/B b\n=\nMSG: pkg/B" = .ok b := rfl
  have hrepeated : ¬ b.Nodup := by simp [b]
  obtain ⟨written, hwritten, hnodup, hiff⟩ := nodup_iff_of_parse h
  exact ⟨h, hrepeated, written, hnodup, fun hapart => hrepeated (hiff.mpr (.inr hapart)), hwritten⟩

end Bundle
end MessageSchema
