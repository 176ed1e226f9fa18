import MessageSchema.Proofs.Bundle.Parsed

/-!
The canonical text of a bundle that has been read, read a second time. The text gives back every
definition but the name of the root, so resolution succeeds exactly when no type bears that name.
-/
namespace MessageSchema

namespace Field

variable {f : Field}

theorem isComplex_reread (h : f.IsParsed) : f.reread.isComplex = f.isComplex := by
  by_cases hconst : f.isConstant = true
  · have hcomplex : f.reread.isComplex = !TypeName.isBuiltin (TypeName.normalize f.typeName) := by
      rw [reread, if_pos hconst]
      rfl
    rw [hcomplex, TypeName.isBuiltin_normalize, h.isComplex]
  · rw [reread, if_neg hconst]

theorem typeName_reread_of_isQualified (h : TypeName.isQualified f.typeName = true) :
    f.reread.typeName = f.typeName := by
  by_cases hconst : f.isConstant = true
  · rw [typeName_reread hconst, TypeName.normalize_of_isQualified h]
  · rw [reread, if_neg hconst]

end Field

namespace Definition

variable {b : Bundle} {d : Definition}

theorem IsParsed.isReadable (h : d.IsParsed)
    (htoken : ∀ f ∈ d.fields, f.isComplex = true → TypeName.IsToken f.typeName) :
    d.IsReadable where
  typeName f hf := by
    cases hcomplex : f.isComplex with
    | true => exact htoken f hf hcomplex
    | false => exact (h.fields f hf).isToken_typeName hcomplex
  member f hf hmember := (h.fields f hf).isDeclarable hmember

theorem mem_fields_reread {f : Field} : f ∈ d.reread.fields ↔ ∃ g ∈ d.fields, g.reread = f := by
  rw [reread, List.mem_map]
  exact exists_congr fun g => and_congr_left fun _ => mem_printedFields

theorem isLiteralFree_reread (h : d.IsParsed) : d.reread.IsLiteralFree := by
  intro f hf
  obtain ⟨g, hg, rfl⟩ := mem_fields_reread.mp hf
  by_cases hconst : g.isConstant = true
  · rw [Field.reread, if_pos hconst]
    exact ⟨rfl, rfl⟩
  · rw [Field.reread, if_neg hconst]
    exact (h.fields g hg).literalFree

theorem isQualified_reread (h : d.IsParsed) (hslash : d.IsQualified) : d.reread.IsQualified := by
  intro f hf hcomplex
  obtain ⟨g, hg, rfl⟩ := mem_fields_reread.mp hf
  rw [Field.isComplex_reread (h.fields g hg)] at hcomplex
  rw [Field.typeName_reread_of_isQualified (hslash g hg hcomplex)]
  exact hslash g hg hcomplex

theorem isBound_reread_iff (h : d.IsParsed) (hslash : d.IsQualified) :
    d.reread.IsBound b ↔ d.IsBound b := by
  have hiff : ∀ f ∈ d.fields, (f.reread.isComplex = true → b.bearers f.reread.typeName = 1) ↔
      (f.isComplex = true → b.bearers f.typeName = 1) := by
    intro f hf
    rw [Field.isComplex_reread (h.fields f hf)]
    refine forall_congr' fun hcomplex => ?_
    rw [Field.typeName_reread_of_isQualified (hslash f hf hcomplex)]
  constructor
  · exact fun hbound f hf => (hiff f hf).mp (hbound _ (mem_fields_reread.mpr ⟨f, hf, rfl⟩))
  · intro hbound f hf
    obtain ⟨g, hg, rfl⟩ := mem_fields_reread.mp hf
    exact (hiff g hg).mpr (hbound g hg)

end Definition

namespace Bundle

variable {b : Bundle} {root d : Definition} {others : Bundle} {t : String}

theorem exists_of_mem_reread (hd : d ∈ reread b) : ∃ e ∈ b, d.fields = e.reread.fields := by
  cases b with
  | nil => exact absurd hd List.not_mem_nil
  | cons root others =>
    rcases List.mem_cons.mp hd with rfl | hd
    · exact ⟨root, List.mem_cons_self, rfl⟩
    · obtain ⟨e, he, rfl⟩ := List.mem_map.mp hd
      exact ⟨e, List.mem_cons_of_mem root he, rfl⟩

theorem exists_mem_reread (hd : d ∈ b) : ∃ e ∈ reread b, e.fields = d.reread.fields := by
  cases b with
  | nil => exact absurd hd List.not_mem_nil
  | cons root others =>
    rcases List.mem_cons.mp hd with rfl | hd
    · exact ⟨d.rereadRoot, List.mem_cons_self, rfl⟩
    · exact ⟨d.reread, List.mem_cons_of_mem _ (List.mem_map_of_mem hd), rfl⟩

theorem isLiteralFree_of_mem_reread (h : ∀ d ∈ b, d.IsParsed) :
    ∀ d ∈ reread b, d.IsLiteralFree := by
  intro d hd
  obtain ⟨e, he, hfields⟩ := exists_of_mem_reread hd
  have hfree := Definition.isLiteralFree_reread (h e he)
  rwa [Definition.IsLiteralFree, hfields]

theorem bearers_reread (root : Definition) (others : Bundle) (t : String) :
    (reread (root :: others)).bearers t = others.bearers t := by
  have hothers : bearers (others.map Definition.reread) t = others.bearers t := by
    rw [bearers, List.countP_map]
    rfl
  rw [reread, bearers_cons, hothers]
  simp [Definition.rereadRoot]

/-- What is read from the canonical text, before it is resolved. -/
def echo (b : Bundle) : Bundle := (reread b).eraseDups

theorem mem_echo_iff (h : ∀ d ∈ b, d.IsParsed) : d ∈ echo b ↔ d ∈ reread b :=
  mem_eraseDups (isLiteralFree_of_mem_reread h)

/-- A name that one definition bears is found in the echo unless it is the root's. -/
theorem bearers_echo_iff (h : ∀ d ∈ root :: others, d.IsParsed)
    (hbound : bearers (root :: others) t = 1) :
    (echo (root :: others)).bearers t = 1 ↔ root.name ≠ some t := by
  have hle : (echo (root :: others)).bearers t ≤ (reread (root :: others)).bearers t :=
    (eraseDups_sublist _).countP_le
  rw [bearers_reread] at hle
  rw [bearers_cons] at hbound
  by_cases hroot : root.name = some t
  · simp only [hroot, ne_eq, not_true_eq_false, iff_false]
    rw [if_pos hroot] at hbound
    omega
  · rw [if_neg hroot, Nat.add_zero] at hbound
    have hone : (reread (root :: others)).bearers t = 1 := by rw [bearers_reread, hbound]
    obtain ⟨d, hd, hname⟩ := exists_of_bearers_eq_one hone
    have hpos : 0 < (echo (root :: others)).bearers t :=
      List.countP_pos_iff.mpr ⟨d, (mem_echo_iff h).mpr hd, beq_iff_eq.mpr hname⟩
    simp only [ne_eq, hroot, not_false_eq_true, iff_true]
    omega

theorem isQualified_of_mem_echo (h : b.IsParsed) : ∀ d ∈ echo b, d.IsQualified := by
  intro d hd
  obtain ⟨e, he, hfields⟩ := exists_of_mem_reread ((mem_echo_iff h.definitions).mp hd)
  have hqualified := Definition.isQualified_reread (h.definitions e he) (h.qualified e he)
  rwa [Definition.IsQualified, hfields]

theorem isBound_echo_iff (h : IsParsed (root :: others)) :
    (∀ d ∈ echo (root :: others), d.IsBound (echo (root :: others))) ↔
      ∀ d ∈ root :: others, ∀ f ∈ d.fields, f.isComplex = true → root.name ≠ some f.typeName := by
  have hdefinition : ∀ d ∈ root :: others, d.reread.IsBound (echo (root :: others)) ↔
      ∀ f ∈ d.fields, f.isComplex = true → root.name ≠ some f.typeName := by
    intro d hd
    rw [Definition.isBound_reread_iff (h.definitions d hd) (h.qualified d hd)]
    refine forall₂_congr fun f hf => forall_congr' fun hcomplex => ?_
    exact bearers_echo_iff h.definitions (h.bound d hd f hf hcomplex)
  constructor
  · intro hall d hd
    obtain ⟨e, he, hfields⟩ := exists_mem_reread hd
    have hbound := hall e ((mem_echo_iff h.definitions).mpr he)
    rw [Definition.IsBound, hfields] at hbound
    exact (hdefinition d hd).mp hbound
  · intro hall d hd
    obtain ⟨e, he, hfields⟩ := exists_of_mem_reread ((mem_echo_iff h.definitions).mp hd)
    have hbound := (hdefinition e he).mpr (hall e he)
    rwa [Definition.IsBound, hfields]

/-- Reading the canonical text of a bundle fails exactly when a type bears the name of the root;
else it gives the definitions again, without repetitions. -/
theorem parse_print_eq_ok_iff (h : IsParsed (root :: others))
    (hnamed : ∀ d ∈ others, d.name ≠ none)
    (htoken : ∀ d ∈ root :: others, ∀ f ∈ d.fields, f.isComplex = true →
      TypeName.IsToken f.typeName) :
    parse {} (print (root :: others)) = .ok b ↔ b = echo (root :: others) ∧
      ∀ d ∈ root :: others, ∀ f ∈ d.fields, f.isComplex = true → root.name ≠ some f.typeName := by
  have hread : ofTextAsWritten (print (root :: others)) = .ok (echo (root :: others)) := by
    apply ofTextAsWritten_print h.isLegible
    · exact fun d hd => (h.definitions d hd).isReadable (htoken d hd)
    · intro d hd
      obtain ⟨name, hname⟩ := Option.ne_none_iff_exists'.mp (hnamed d hd)
      have hparsed := h.definitions d (List.mem_cons_of_mem root hd)
      exact ⟨name, hname, (hparsed.name name hname).1⟩
  rw [parse_eq_ok_iff, hread]
  simp only [Except.ok.injEq, exists_eq_left', resolve_of_isQualified (isQualified_of_mem_echo h),
    isBound_echo_iff h]

end Bundle
end MessageSchema
