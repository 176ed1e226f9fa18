import MessageSchema.Proofs.Bundle.SecondReading
import MessageSchema.Proofs.Fingerprint.Structure

/-!
Fingerprints of canonical texts. Printing and hashing each leave out something of a definition;
where printing leaves out nothing that is hashed, the text that is read again has the fingerprint
of the bundle that was printed.
-/
namespace MessageSchema

theorem Field.hashedConstant_reread {f : Field} (hconst : f.isConstant = true)
    (hspelling : TypeName.normalize f.typeName = f.typeName) :
    f.reread.hashedConstant = f.hashedConstant := by
  rw [hashedConstant, typeName_reread hconst, hspelling, name_reread, constantText_reread,
    hashedConstant]

namespace Definition

variable {d d' : Definition}

/-- A definition whose printed lines say all that is hashed of it: its constants have types without
an alias, and its complex types are tokens. -/
structure IsFaithful (d : Definition) : Prop where
  constants : ∀ f ∈ d.constants, f.typeName ≠ "char" ∧ f.typeName ≠ "byte"
  types : ∀ f ∈ d.fields, f.isComplex = true → TypeName.IsToken f.typeName

theorem constants_eq_of_fields_eq (hfields : d'.fields = d.fields) : d'.constants = d.constants :=
  congrArg (List.filter _) hfields

theorem members_eq_of_fields_eq (hfields : d'.fields = d.fields) : d'.members = d.members :=
  congrArg (List.filter _) hfields

theorem references_of_fields_reread (hfields : d'.fields = d.reread.fields) :
    d'.references = d.references := by
  rw [references, members_eq_of_fields_eq hfields, members_reread, references]

theorem hashedText_of_fields_reread (hfields : d'.fields = d.reread.fields) (h : d.IsFaithful)
    (hashOf : String → String) : d'.hashedText hashOf = d.hashedText hashOf := by
  have hconst : d'.constants.map Field.hashedConstant = d.constants.map Field.hashedConstant := by
    rw [constants_eq_of_fields_eq hfields, constants_reread, List.map_map]
    refine List.map_congr_left fun f hf => ?_
    have hspelling := TypeName.normalize_eq_self_iff.mpr (h.constants f hf)
    exact Field.hashedConstant_reread (List.mem_filter.mp hf).2 hspelling
  rw [hashedText, hconst, members_eq_of_fields_eq hfields, members_reread, hashedText]

end Definition

namespace Bundle

variable {b b' others : Bundle} {d d' e root : Definition} {t h text : String}

/-- Where every name in reach leads to the second reading of what it led to, hashes stay. -/
theorem StructuralHash.of_reread (hd : b.StructuralHash d h)
    (hlookup : ∀ t e, b.Reaches root t → b.lookup? t = some e → b'.lookup? t = some e.reread)
    (hfaithful : ∀ e, b.Involves root e → e.IsFaithful) (hinvolved : b.Involves root d)
    (hfields : d'.fields = d.reread.fields) : b'.StructuralHash d' h := by
  induction hd generalizing d' with
  | @intro d target hashOf found deeper ih =>
    have hreferences := Definition.references_of_fields_reread hfields
    rw [← Definition.hashedText_of_fields_reread hfields (hfaithful d hinvolved) hashOf]
    apply StructuralHash.intro (fun t => (target t).reread) hashOf
    · intro t ht
      rw [hreferences] at ht
      exact hlookup t (target t) (hinvolved.reaches ht) (found t ht)
    · intro t ht
      rw [hreferences] at ht
      exact ih t ht (hinvolved.lookup ht (found t ht)) rfl

theorem exists_written_of_parse_print (h : IsParsed (root :: others))
    (hagain : parse {} (print (root :: others)) = .ok b') :
    ∃ written : Bundle, written.resolve = .ok b' ∧
      (root.IsReadable → ∃ rest, written = root.rereadRoot :: rest) ∧
      ∀ d ∈ others, d.IsReadable → d.name ≠ none → d.reread ∈ written := by
  obtain ⟨written, hwritten, hresolve⟩ := parse_eq_ok_iff.mp hagain
  rw [ofTextAsWritten, ofSections, Attempts.map_eq_ok_iff] at hwritten
  obtain ⟨ds, hds, rfl⟩ := hwritten
  have hfree : ∀ d ∈ ds, d.IsLiteralFree := by
    intro d hd
    obtain ⟨ls, hls, hread⟩ := Attempts.exists_source_of_mapM_eq_ok hds d hd
    exact (Definition.isParsed_ofLines (Section.newline_not_mem_of_mem_ofText hls) hread).isLiteralFree
  rw [ofText_print h.isLegible] at hds
  refine ⟨ds.eraseDups, hresolve, fun hroot => ?_, fun d hd hread hname => ?_⟩
  · rw [List.mapM_cons, Definition.ofLines_rootSection (h.isLegible.fields root List.mem_cons_self)
      hroot, Attempts.ok_bind, Attempts.bind_eq_ok_iff] at hds
    obtain ⟨rest, -, hpure⟩ := hds
    obtain rfl := Attempts.pure_eq_ok_iff.mp hpure
    exact ⟨_, List.eraseDups_cons⟩
  · have hmem := List.mem_cons_of_mem root hd
    obtain ⟨name, hbears⟩ := Option.ne_none_iff_exists'.mp hname
    obtain ⟨hne, hphrase⟩ := (h.definitions d hmem).name name hbears
    obtain ⟨d', hd', hlines⟩ := Attempts.exists_result_of_mapM_eq_ok hds (otherSection d)
      (List.mem_cons_of_mem _ (List.mem_map_of_mem hd))
    rw [Definition.ofLines_otherSection (h.isLegible.fields d hmem) hread hbears hphrase hne] at hlines
    obtain rfl := Except.ok.inj hlines
    exact (mem_eraseDups hfree).mpr hd'

theorem mem_resolve (h : b.resolve = .ok b') (hd : d ∈ b) (hslash : d.IsQualified) :
    d ∈ b' ∧ d.IsBound b' := by
  obtain ⟨d', hd', hresolve⟩ := Attempts.exists_result_of_mapM_eq_ok h d hd
  obtain ⟨rfl, hbound⟩ := (resolveDefinition_of_isQualified hslash).mp hresolve
  refine ⟨hd', fun f hf hcomplex => ?_⟩
  rw [bearers_resolve h]
  exact hbound f hf hcomplex

theorem head_resolve {rest : Bundle} (h : resolve (d :: rest) = .ok b') (hslash : d.IsQualified) :
    ∃ rest', b' = d :: rest' := by
  rw [resolve, List.mapM_cons, Attempts.bind_eq_ok_iff] at h
  obtain ⟨d', hd', hrest⟩ := h
  obtain ⟨rfl, -⟩ := (resolveDefinition_of_isQualified hslash).mp hd'
  obtain ⟨rest', -, hpure⟩ := Attempts.bind_eq_ok_iff.mp hrest
  exact ⟨rest', Attempts.pure_eq_ok_iff.mp hpure⟩

/-- Whatever the root reaches is looked up in a second reading as before. -/
theorem exists_second_reading {value : String} (h : IsParsed (root :: others))
    (hnamed : ∀ d ∈ others, d.name ≠ none)
    (hread : ∀ d, Involves (root :: others) root d → d.IsReadable)
    (hash : StructuralHash (root :: others) root value)
    (hagain : parse {} (print (root :: others)) = .ok b') :
    ∃ rest, b' = root.rereadRoot :: rest ∧ ∀ t d, Reaches (root :: others) root t →
      lookup? (root :: others) t = some d → lookup? b' t = some d.reread := by
  have hmem {d : Definition} (hd : Involves (root :: others) root d) : d ∈ root :: others :=
    mem_of_involves List.mem_cons_self hd
  have hslash {d : Definition} (hd : Involves (root :: others) root d) : d.reread.IsQualified :=
    Definition.isQualified_reread (h.definitions d (hmem hd)) (h.qualified d (hmem hd))
  obtain ⟨written, hresolve, hroot, hothers⟩ := exists_written_of_parse_print h hagain
  have hinvolved := Involves.refl (root :: others) root
  obtain ⟨rest, rfl⟩ := hroot (hread root hinvolved)
  -- No type in reach bears the name of the root: the root would reach itself.
  have hlater {t : String} {d : Definition} (hreach : Reaches (root :: others) root t)
      (hfound : lookup? (root :: others) t = some d) : d ∈ others := by
    refine (List.mem_cons.mp (mem_of_lookup? hfound).1).resolve_left ?_
    rintro rfl
    exact hash.not_reaches hfound hreach
  have hsecond {t : String} {d : Definition} (hreach : Reaches (root :: others) root t)
      (hfound : lookup? (root :: others) t = some d) : d.reread ∈ b' ∧ d.reread.IsBound b' := by
    have hd : Involves (root :: others) root d := .inr ⟨t, hreach, hfound⟩
    have hlast := hlater hreach hfound
    exact mem_resolve hresolve (hothers d hlast (hread d hd) (hnamed d hlast)) (hslash hd)
  have hbound {d : Definition} (hd : Involves (root :: others) root d) : d.IsBound b' := by
    rw [← Definition.isBound_reread_iff (h.definitions d (hmem hd)) (h.qualified d (hmem hd))]
    rcases hd with rfl | ⟨t, hreach, hfound⟩
    · exact (mem_resolve hresolve List.mem_cons_self (hslash hinvolved)).2
    · exact (hsecond hreach hfound).2
  obtain ⟨rest', hrest⟩ := head_resolve hresolve (hslash hinvolved)
  refine ⟨rest', hrest, fun t d hreach hfound => ?_⟩
  obtain ⟨e, he, hreference⟩ := exists_reference hreach
  have hbearers := bearers_of_mem_references (h.definitions e (hmem he)).isMarked (hbound he) hreference
  exact lookup?_of_bearers hbearers (hsecond hreach hfound).1 (mem_of_lookup? hfound).2

theorem parse_print_eq_ofSections (h : IsLegible (root :: others)) :
    parse {} (print (root :: others)) =
      ofSections (rootSection root :: others.map otherSection) >>= resolve := by
  rw [← ofText_print h]
  rfl

/-- Two fingerprints that do not survive: the canonical text drops the brackets behind an alias, and
it declares a constant where a type has a name with a blank and an equals sign. -/
theorem fingerprint_of_canonical_text_differs :
    (let before : Bundle := [⟨none, [((Field.plain "char" "X").asArray none).asConstant "5"]⟩]
      let after : Bundle := [⟨none, [(Field.plain "uint8" "X").asConstant "5"]⟩]
      parse {} "char[] X=5" = .ok before ∧ parse {} (print before) = .ok after ∧
        fingerprint before = .ok "c75569475019f52dd4554ffaded3288e" ∧
        fingerprint after = .ok "8cd866e808ac24bf1967384d3a5f4170") ∧
    let target : Definition := ⟨some "int8 y=/A", [.plain "int32" "x"]⟩
    let before : Bundle := [⟨none, [.plain "int8 y=/A" "a"]⟩, target]
    let after : Bundle := [⟨none, [(Field.plain "int8" "y").asConstant "/A a"]⟩, target]
    parse {} "A a\n===\nMSG: int8 y=/A\nint32 x" = .ok before ∧ parse {} (print before) = .ok after ∧
      fingerprint before = .ok "dd282bb5f4935f43f5938c8769c27d65" ∧
      fingerprint after = .ok "0911ee246b556a7f2a67d0d400b2298e" := by
  refine ⟨⟨rfl, rfl, ?_, ?_⟩, ?_⟩
  · rw [fingerprint_of_shallow ⟨none, []⟩ rfl rfl]
    exact congrArg Except.ok (by decide +kernel)
  · rw [fingerprint_of_shallow ⟨none, []⟩ rfl rfl]
    exact congrArg Except.ok (by decide +kernel)
  dsimp only
  have hparse : parse {} "A a\n===\nMSG: int8 y=/A\nint32 x" = .ok
      [⟨none, [.plain "int8 y=/A" "a"]⟩, ⟨some "int8 y=/A", [.plain "int32" "x"]⟩] := rfl
  refine ⟨hparse, ?_, ?_, ?_⟩
  · rw [parse_print_eq_ofSections (isParsed_of_parse hparse).isLegible]
    rfl
  · rw [fingerprint_of_shallow ⟨some "int8 y=/A", [.plain "int32" "x"]⟩ rfl rfl]
    exact congrArg Except.ok (by decide +kernel)
  · rw [fingerprint_of_shallow ⟨none, []⟩ rfl rfl]
    exact congrArg Except.ok (by decide +kernel)

/-- The fingerprint of what has been read survives its canonical text, as long as the root and the
definitions that it reaches are faithful. -/
theorem fingerprint_of_canonical_text (hparse : parse {} text = .ok (root :: others))
    (hnamed : ∀ d ∈ others, d.name ≠ none)
    (hfaithful : ∀ d, Involves (root :: others) root d → d.IsFaithful)
    (hfingerprint : fingerprint (root :: others) = .ok h)
    (hagain : parse {} (print (root :: others)) = .ok b') : fingerprint b' = .ok h := by
  have hparsed := isParsed_of_parse hparse
  have hash := ((fingerprints_root root others).eq_ok_iff h).mp hfingerprint
  have hinvolved := Involves.refl (root :: others) root
  have hread : ∀ d, Involves (root :: others) root d → d.IsReadable := by
    intro d hd
    have hmem := mem_of_involves List.mem_cons_self hd
    exact (hparsed.definitions d hmem).isReadable (hfaithful d hd).types
  obtain ⟨rest, rfl, hlookup⟩ := exists_second_reading hparsed hnamed hread hash hagain
  rw [(fingerprints_root root.rereadRoot rest).eq_ok_iff]
  exact hash.of_reread hlookup hfaithful hinvolved rfl

theorem fingerprint_of_canonical_text_point :
    let point : Definition := ⟨some "pkg/Point", [.plain "float64" "x"]⟩
    let limit : Field := (Field.plain "int32" "LIMIT").asConstant "3"
    let ends : Field := (Field.plain "pkg/Point" "ends").asArray (some 2)
    let before : Bundle := [⟨none, [ends, limit]⟩, point]
    let after : Bundle := [⟨none, [limit, ends]⟩, point]
    parse {} "Point[2] ends\nint32 LIMIT=3\n===\nMSG: pkg/Point\nfloat64 x" = .ok before ∧
      parse {} (print before) = .ok after ∧
      fingerprint before = .ok "fbb9c34911f7f9c7e2946b09ca770407" ∧
      fingerprint after = .ok "fbb9c34911f7f9c7e2946b09ca770407" := by
  dsimp only
  have hparse : parse {} "Point[2] ends\nint32 LIMIT=3\n===\nMSG: pkg/Point\nfloat64 x" = .ok
      [ ⟨none, [(Field.plain "pkg/Point" "ends").asArray (some 2),
          (Field.plain "int32" "LIMIT").asConstant "3"]⟩,
        ⟨some "pkg/Point", [.plain "float64" "x"]⟩ ] := rfl
  have hagain := parse_print_eq_ofSections (isParsed_of_parse hparse).isLegible
  have hfingerprint : fingerprint
      [ ⟨none, [(Field.plain "pkg/Point" "ends").asArray (some 2),
          (Field.plain "int32" "LIMIT").asConstant "3"]⟩,
        ⟨some "pkg/Point", [.plain "float64" "x"]⟩ ] = .ok "fbb9c34911f7f9c7e2946b09ca770407" := by
    rw [fingerprint_of_shallow ⟨some "pkg/Point", [.plain "float64" "x"]⟩ rfl rfl]
    exact congrArg Except.ok (by decide +kernel)
  refine ⟨hparse, hagain, hfingerprint, ?_⟩
  apply fingerprint_of_canonical_text hparse (by decide) _ hfingerprint hagain
  intro d hd
  rcases List.mem_cons.mp (mem_of_involves List.mem_cons_self hd) with rfl | hd
  · exact ⟨by decide, by decide +kernel⟩
  · obtain rfl := List.mem_singleton.mp hd
    exact ⟨by decide, by decide +kernel⟩

end Bundle
end MessageSchema
