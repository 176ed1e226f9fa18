import MessageSchema.Proofs.Bundle.Parsed

/-!
What reading guarantees, whatever the text. A field has the attributes that a line can give it and
no others; its type is a token as long as it is kept as it is written, and the name of one
definition once it has been resolved.
-/
namespace MessageSchema

namespace Field

variable {f g : Field} {line : Line}

/-- A field with nothing but what a line can say. The text of a value makes it a constant, and
without brackets its type is spelled without an alias. -/
structure IsWellFormed (f : Field) : Prop where
  name : IsToken f.name
  isComplex : f.isComplex = !TypeName.isBuiltin f.typeName
  isConstant : f.isConstant = true ↔ f.valueText ≠ none
  valueText : ∀ text, f.valueText = some text → Text.IsPhrase text.toList
  value : f.value = none
  defaultValue : f.defaultValue = none
  upperBound : f.upperBound = none
  arrayUpperBound : f.arrayUpperBound = none
  arrayLength : f.isArray = false → f.arrayLength = none
  spelling : f.isArray = false → f.typeName ≠ "char" ∧ f.typeName ≠ "byte"

theorem IsParsed.isWellFormed (h : f.IsParsed) (hconst : f.isConstant = true → f.valueText ≠ none) :
    f.IsWellFormed where
  name := h.name
  isComplex := h.isComplex
  isConstant := by
    refine ⟨hconst, fun htext => ?_⟩
    by_contra hmember
    exact htext (h.valueText (by simpa using hmember))
  valueText text htext := by
    have hphrase := h.constantText
    rwa [Field.constantText, htext] at hphrase
  value := h.literalFree.value
  defaultValue := h.literalFree.defaultValue
  upperBound := h.unbounded.1
  arrayUpperBound := h.unbounded.2
  arrayLength := h.arrayLength
  spelling hsingle := TypeName.normalize_eq_self_iff.mp (h.spelling hsingle)

structure IsWritten (f : Field) : Prop where
  parsed : f.IsParsed
  typeName : TypeName.IsToken f.typeName
  valueText : f.isConstant = true → f.valueText ≠ none

theorem valueText_toField (d : Declaration) (hconst : d.toField.isConstant = true) :
    d.toField.valueText ≠ none := by
  obtain ⟨typeName, shape, name, value⟩ := d
  cases value with
  | some value => exact Option.some_ne_none _
  | none => cases shape <;> cases hconst

theorem isWritten_of_ofLine (hline : Text.IsPhrase line)
    (hheader : ¬ Definition.headerMark <+: line) (h : ofLine line = .ok f) : f.IsWritten := by
  obtain ⟨hparsed, htoken⟩ := isParsed_of_ofLine hline hheader h
  refine ⟨hparsed, htoken, fun hconst => ?_⟩
  rw [ofLine] at h
  split at h
  · obtain rfl := Except.ok.inj h
    exact valueText_toField _ hconst
  · cases h

end Field

namespace Definition

variable {d : Definition}

theorem isWritten_of_ofLines {ls : List Line} (hls : ∀ l ∈ ls, '\n' ∉ l) (h : ofLines ls = .ok d) :
    ∀ f ∈ d.fields, f.IsWritten := by
  have hempty : ∀ f ∈ ({ name := none, fields := [] } : Definition).fields, f.IsWritten :=
    fun f hf => absurd hf List.not_mem_nil
  apply Attempts.foldlM_preserves (P := fun d => ∀ f ∈ d.fields, f.IsWritten) _ hempty h
  intro line hline d d' hd hstep
  refine forall_mem_fields_putLine hd (fun f hheader hfield => ?_) hstep
  exact Field.isWritten_of_ofLine (isPhrase_of_mem_cleanLines hls line hline) hheader hfield

end Definition

namespace Bundle

variable {b b' : Bundle} {text : String}

structure IsWellFormed (keepsTypeNames : Bool) (b : Bundle) : Prop where
  ne_nil : b ≠ []
  name : ∀ d ∈ b, ∀ name, d.name = some name → name.toList ≠ [] ∧ Text.IsPhrase name.toList
  field : ∀ d ∈ b, ∀ f ∈ d.fields, f.IsWellFormed
  token : ∀ d ∈ b, ∀ f ∈ d.fields, keepsTypeNames = true ∨ f.isComplex = false →
    TypeName.IsToken f.typeName
  reference : keepsTypeNames = false → ∀ d ∈ b, ∀ f ∈ d.fields, f.isComplex = true →
    '/' ∈ f.typeName.toList ∧ b.bearers f.typeName = 1

theorem isWritten_of_ofTextAsWritten (h : ofTextAsWritten text = .ok b) :
    ∀ d ∈ b, ∀ f ∈ d.fields, f.IsWritten := by
  obtain ⟨ds, hds, rfl⟩ := Attempts.map_eq_ok_iff.mp h
  intro d hd
  obtain ⟨ls, hls, hread⟩ :=
    Attempts.exists_source_of_mapM_eq_ok hds d ((eraseDups_sublist ds).subset hd)
  exact Definition.isWritten_of_ofLines (Section.newline_not_mem_of_mem_ofText hls) hread

theorem valueText_of_resolve (hb : ∀ d ∈ b, ∀ f ∈ d.fields, f.IsWritten) (h : b.resolve = .ok b') :
    ∀ d ∈ b', ∀ f ∈ d.fields, f.isConstant = true → f.valueText ≠ none := by
  intro d hd f hf
  obtain ⟨e, he, hresolve⟩ := Attempts.exists_source_of_mapM_eq_ok h d hd
  obtain ⟨fields, hfields, rfl⟩ := resolveDefinition_eq_ok_iff.mp hresolve
  obtain ⟨g, hg, hfield⟩ := Attempts.exists_source_of_mapM_eq_ok hfields f hf
  rcases resolveField_eq_ok_iff.mp hfield with ⟨-, rfl⟩ | ⟨-, typeName, -, rfl⟩
  · exact (hb e he f hg).valueText
  · exact (hb e he g hg).valueText

theorem isWellFormed_of_ofTextAsWritten (h : ofTextAsWritten text = .ok b) :
    b.IsWellFormed true where
  ne_nil := ofTextAsWritten_ne_nil h
  name d hd := (isParsed_of_ofTextAsWritten h d hd).name
  field d hd f hf :=
    have hwritten := isWritten_of_ofTextAsWritten h d hd f hf
    hwritten.parsed.isWellFormed hwritten.valueText
  token d hd f hf _ := (isWritten_of_ofTextAsWritten h d hd f hf).typeName
  reference hfalse := absurd hfalse (by decide)

theorem isWellFormed_of_parse (h : parse {} text = .ok b) : b.IsWellFormed false := by
  have hparsed := isParsed_of_parse h
  obtain ⟨written, hwritten, hresolve⟩ := parse_eq_ok_iff.mp h
  have hvalue := valueText_of_resolve (isWritten_of_ofTextAsWritten hwritten) hresolve
  refine
    { ne_nil := hparsed.ne_nil
      name := fun d hd => (hparsed.definitions d hd).name
      field := fun d hd f hf =>
        ((hparsed.definitions d hd).fields f hf).isWellFormed (hvalue d hd f hf)
      token := fun d hd f hf hkind => ?_
      reference := fun _ d hd f hf hcomplex => ⟨?_, hparsed.bound d hd f hf hcomplex⟩ }
  · have hsimple : f.isComplex = false := hkind.resolve_left (by decide)
    exact ((hparsed.definitions d hd).fields f hf).isToken_typeName hsimple
  · simpa [TypeName.isQualified] using hparsed.qualified d hd f hf hcomplex

/-- Whatever can be read is well formed, be its type names kept or resolved. -/
theorem isWellFormed_of_ofText {keepsTypeNames : Bool} (h : ofText keepsTypeNames text = .ok b) :
    b.IsWellFormed keepsTypeNames := by
  cases keepsTypeNames with
  | false => exact isWellFormed_of_parse h
  | true =>
    obtain ⟨written, hwritten, hpure⟩ := Attempts.bind_eq_ok_iff.mp h
    obtain rfl := Attempts.pure_eq_ok_iff.mp hpure
    exact isWellFormed_of_ofTextAsWritten hwritten

/-- An alias with and without brackets, a value with blanks and an equals sign in it, and a type in
a package whose name holds a blank. -/
theorem isWellFormed_of_alias :
    let b : Bundle :=
      [ { name := none
          fields := [(Field.plain "char" "label").asArray (some 3),
            (Field.plain "int8" "LIMIT").asConstant "a = b", .plain "my pkg/Point" "origin"] },
        { name := some "my pkg/Point", fields := [] } ]
    ofText false "char[3] label\nbyte LIMIT = a = b # x\nPoint origin\n=\nMSG: my pkg/Point" = .ok b ∧
      b.IsWellFormed false := by
  intro b
  have h : ofText false
      "char[3] label\nbyte LIMIT = a = b # x\nPoint origin\n=\nMSG: my pkg/Point" = .ok b := rfl
  exact ⟨h, isWellFormed_of_ofText h⟩

end Bundle
end MessageSchema
