import MessageSchema.Proofs.Bundle.Resolution
import MessageSchema.Proofs.Bundle.Reread
import MessageSchema.Proofs.Definition.Parsed

/-!
Bundles as they are read. Whatever text it is that can be read, the bundle can be printed with a
section for every definition, and its type names are bound.
-/
namespace MessageSchema

namespace Field

variable {f : Field} {name : String}

theorem IsParsed.withTypeName (h : f.IsParsed) (hcomplex : f.isComplex = true)
    (hslash : TypeName.isQualified name = true) (hname : Text.IsPhrase name.toList) :
    IsParsed { f with typeName := name } :=
  { h with
    typeName_ne := fun hempty => TypeName.ne_empty_of_isQualified hslash (by simpa using hempty)
    typeName := hname
    isComplex := by simp [hcomplex, TypeName.isBuiltin_of_isQualified hslash]
    literalFree := ⟨h.literalFree.value, h.literalFree.defaultValue⟩
    spelling := fun _ => TypeName.normalize_of_isQualified hslash }

theorem IsParsed.isToken_typeName (h : f.IsParsed) (hsimple : f.isComplex = false) :
    TypeName.IsToken f.typeName := by
  have hall : ∀ t ∈ TypeName.builtin, TypeName.IsToken t := by decide +kernel
  have hbuiltin : TypeName.isBuiltin f.typeName = true := by simpa [hsimple] using h.isComplex
  exact hall _ (List.contains_iff_mem.mp hbuiltin)

end Field

theorem Definition.IsParsed.isMarked {d : Definition} (h : d.IsParsed) : d.IsMarked :=
  fun f hf => (h.fields f hf).isComplex

namespace Bundle

variable {b b' : Bundle} {d d' : Definition} {text : String}

structure IsParsed (b : Bundle) : Prop where
  ne_nil : b ≠ []
  definitions : ∀ d ∈ b, d.IsParsed
  qualified : ∀ d ∈ b, d.IsQualified
  bound : ∀ d ∈ b, d.IsBound b

theorem IsParsed.isLegible (h : b.IsParsed) : b.IsLegible where
  fields d hd f hf := ((h.definitions d hd).fields f hf).isLegible
  name d hd name hname := ((h.definitions d hd).name name hname).2

theorem isParsed_of_ofTextAsWritten (h : ofTextAsWritten text = .ok b) : ∀ d ∈ b, d.IsParsed := by
  obtain ⟨ds, hds, rfl⟩ := Attempts.map_eq_ok_iff.mp h
  intro d hd
  obtain ⟨ls, hls, hread⟩ :=
    Attempts.exists_source_of_mapM_eq_ok hds d ((eraseDups_sublist ds).subset hd)
  exact Definition.isParsed_ofLines (Section.newline_not_mem_of_mem_ofText hls) hread

theorem ofTextAsWritten_ne_nil (h : ofTextAsWritten text = .ok b) : b ≠ [] := by
  obtain ⟨ds, hds, rfl⟩ := Attempts.map_eq_ok_iff.mp h
  obtain ⟨ls, sections, hcut⟩ := List.exists_cons_of_ne_nil (Section.ofText_ne_nil text.toList)
  rw [hcut, List.mapM_cons, Attempts.bind_eq_ok_iff] at hds
  obtain ⟨d, -, hrest⟩ := hds
  obtain ⟨rest, -, hpure⟩ := Attempts.bind_eq_ok_iff.mp hrest
  obtain rfl := Attempts.pure_eq_ok_iff.mp hpure
  rw [List.eraseDups_cons]
  exact List.cons_ne_nil d _

theorem isParsed_resolveDefinition (hb : ∀ d ∈ b, d.IsParsed) (hd : d.IsParsed)
    (h : b.resolveDefinition d = .ok d') : d'.IsParsed := by
  obtain ⟨fields, hfields, rfl⟩ := resolveDefinition_eq_ok_iff.mp h
  refine ⟨fun f hf => ?_, hd.name⟩
  obtain ⟨g, hg, hresolve⟩ := Attempts.exists_source_of_mapM_eq_ok hfields f hf
  rcases resolveField_eq_ok_iff.mp hresolve with ⟨-, rfl⟩ | ⟨hcomplex, typeName, hname, rfl⟩
  · exact hd.fields f hg
  · obtain ⟨hslash, hbound⟩ := fullName_spec hname
    obtain ⟨e, he, hbears⟩ := exists_of_bearers_eq_one hbound
    exact (hd.fields g hg).withTypeName hcomplex hslash ((hb e he).name typeName hbears).2

theorem parse_eq_ok_iff : parse {} text = .ok b ↔
    ∃ written, ofTextAsWritten text = .ok written ∧ written.resolve = .ok b :=
  Attempts.bind_eq_ok_iff

theorem isParsed_of_parse (h : parse {} text = .ok b) : b.IsParsed := by
  obtain ⟨written, hwritten, hresolve⟩ := parse_eq_ok_iff.mp h
  have hdefinitions := isParsed_of_ofTextAsWritten hwritten
  refine ⟨?_, fun d hd => ?_, fun d hd => (isQualified_of_resolve hresolve d hd).1,
    fun d hd => (isQualified_of_resolve hresolve d hd).2⟩
  · rintro rfl
    have hlength := congrArg List.length (map_name_resolve hresolve)
    rw [List.length_map, List.length_map, List.length_nil] at hlength
    exact ofTextAsWritten_ne_nil hwritten (List.length_eq_zero_iff.mp hlength.symm)
  · obtain ⟨e, he, hd⟩ := Attempts.exists_source_of_mapM_eq_ok hresolve d hd
    exact isParsed_resolveDefinition hdefinitions (hdefinitions e he) hd

end Bundle
end MessageSchema
