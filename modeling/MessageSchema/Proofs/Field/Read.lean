import MessageSchema.Proofs.Field.Grammar
import MessageSchema.Proofs.Field.Printed
import MessageSchema.Proofs.Definition.Repetition
import MessageSchema.Proofs.TypeName

/-!
Fields as they are read. The pieces of a declaration are cut from its line, so a line without
comments and blanks at its ends declares a field that can be printed and read again.
-/
namespace MessageSchema

namespace Declaration

/-- The pieces of a declaration lie in its line, and no piece reaches into the next. -/
structure IsCutFrom (line : Line) (d : Declaration) : Prop where
  typeName_ne : d.typeName ≠ []
  typeName_chars : ∀ c ∈ d.typeName, isTypeChar c = true
  typeName_prefix : d.typeName <+: line
  name_ne : d.name ≠ []
  name_chars : ∀ c ∈ d.name, isNameChar c = true
  name_subset : d.name ⊆ line
  value_subset : ∀ value, d.value = some value → value ⊆ line

theorem isCutFrom_of_read? {line : Line} {d : Declaration} (h : read? line = some d) :
    IsCutFrom line d := by
  obtain ⟨c, ⟨hlawful, rfl⟩, rfl⟩ := Cut.read?_eq_some_iff.mp h
  exact
    { typeName_ne := hlawful.typeName_ne
      typeName_chars := fun a ha => Cut.isTypeChar_iff.mpr (hlawful.typeName a ha)
      typeName_prefix := List.prefix_append ..
      name_ne := hlawful.name_ne
      name_chars := fun a ha => Cut.isNameChar_iff.mpr (hlawful.name a ha)
      name_subset := fun a ha => by
        have hname : a ∈ c.name := ha
        simp [Cut.line, hname]
      value_subset := fun value hvalue a ha => by
        have hassigned : c.value = some value := hvalue
        simp [Cut.line, Cut.assigned, hassigned, ha] }

end Declaration

theorem TypeName.IsToken.ofList {cs line : List Char} (hne : cs ≠ [])
    (hchars : ∀ c ∈ cs, Declaration.isTypeChar c = true) (hstart : cs <+: line)
    (hmark : '#' ∉ line) (hheader : ¬ Definition.headerMark <+: line) :
    TypeName.IsToken (String.ofList cs) := by
  have hchar : ∀ c ∈ cs, Text.isBlank c = false ∧ c ≠ '[' := by
    intro c hc
    simpa [Declaration.isTypeChar] using hchars c hc
  rw [← String.toList_ofList (l := cs)] at hne hchar hstart
  exact
    { ne_empty := hne
      solid := fun c hc => (hchar c hc).1
      bracket_not_mem := fun hc => (hchar _ hc).2 rfl
      mark_not_mem := fun hc => hmark (hstart.subset hc)
      no_header := fun h => hheader (h.trans hstart) }

theorem Field.IsToken.ofList {cs : List Char} (hne : cs ≠ [])
    (hchars : ∀ c ∈ cs, Declaration.isNameChar c = true) (hmark : '#' ∉ cs) :
    Field.IsToken (String.ofList cs) := by
  have hchar : ∀ c ∈ cs, Text.isBlank c = false ∧ c ≠ '=' := by
    intro c hc
    simpa [Declaration.isNameChar] using hchars c hc
  rw [← String.toList_ofList (l := cs)] at hne hchar hmark
  exact
    { ne_empty := hne
      solid := fun c hc => (hchar c hc).1
      equals_not_mem := fun hc => (hchar _ hc).2 rfl
      mark_not_mem := hmark }

theorem TypeName.IsToken.normalize {name : String} (h : TypeName.IsToken name) :
    TypeName.IsToken (TypeName.normalize name) := by
  by_cases hc : name = "char"
  · subst hc
    decide
  by_cases hb : name = "byte"
  · subst hb
    decide
  rwa [TypeName.normalize_of_ne hc hb]

namespace Field

variable {f : Field}

/-- A field with nothing but what a line can declare. Its type may be any phrase that is not empty,
since resolution puts the name of a definition there. -/
structure IsParsed (f : Field) : Prop where
  typeName_ne : f.typeName.toList ≠ []
  typeName : Text.IsPhrase f.typeName.toList
  name : IsToken f.name
  constantText : Text.IsPhrase f.constantText
  isComplex : f.isComplex = !TypeName.isBuiltin f.typeName
  literalFree : f.IsLiteralFree
  unbounded : f.upperBound = none ∧ f.arrayUpperBound = none
  valueText : f.isConstant = false → f.valueText = none
  arrayLength : f.isArray = false → f.arrayLength = none
  spelling : f.isArray = false → TypeName.normalize f.typeName = f.typeName

theorem IsParsed.isLegible (h : f.IsParsed) : f.IsLegible where
  typeName_ne := h.typeName_ne
  typeName := h.typeName
  name := h.name
  constantText _ := h.constantText
  unbounded _ := h.unbounded
  noDefault _ := h.literalFree.defaultValue

theorem IsParsed.isDeclarable (h : f.IsParsed) (hmember : f.isConstant = false) :
    f.IsDeclarable where
  isComplex := h.isComplex
  value := h.literalFree.value
  valueText := h.valueText hmember
  arrayLength := h.arrayLength
  spelling := h.spelling

end Field

namespace Declaration

variable {line : Line} {d : Declaration}

theorem isParsed_unvalued (h : IsCutFrom line d)
    (htoken : TypeName.IsToken (String.ofList d.typeName)) (hmark : '#' ∉ line) :
    d.unvalued.IsParsed ∧ TypeName.IsToken d.unvalued.typeName := by
  have hname : Field.IsToken (String.ofList d.name) := .ofList h.name_ne h.name_chars
    fun hc => hmark (h.name_subset hc)
  have hnormal := htoken.normalize
  have hempty : Text.IsPhrase [] := by decide
  have hnot : ¬ true = false := by decide
  rw [unvalued]
  cases d.shape with
  | single =>
    exact ⟨⟨hnormal.ne_empty, hnormal.isPhrase, hname, hempty, rfl, ⟨rfl, rfl⟩, ⟨rfl, rfl⟩,
      fun _ => rfl, fun _ => rfl, fun _ => TypeName.normalize_normalize _⟩, hnormal⟩
  | unbounded =>
    exact ⟨⟨htoken.ne_empty, htoken.isPhrase, hname, hempty, rfl, ⟨rfl, rfl⟩, ⟨rfl, rfl⟩,
      fun _ => rfl, fun _ => rfl, fun hsingle => absurd hsingle hnot⟩, htoken⟩
  | fixed length =>
    exact ⟨⟨htoken.ne_empty, htoken.isPhrase, hname, hempty, rfl, ⟨rfl, rfl⟩, ⟨rfl, rfl⟩,
      fun _ => rfl, fun hsingle => absurd hsingle hnot, fun hsingle => absurd hsingle hnot⟩, htoken⟩

end Declaration

theorem Field.IsParsed.asConstant {f : Field} {text : String} (h : f.IsParsed)
    (htext : Text.IsPhrase text.toList) : (f.asConstant text).IsParsed :=
  { h with
    constantText := htext
    literalFree := ⟨h.literalFree.value, h.literalFree.defaultValue⟩
    valueText := fun hmember => Bool.noConfusion hmember }

/-- A line without comments and blanks at its ends that is no header declares a parsed field. -/
theorem Field.isParsed_of_ofLine {line : Line} {f : Field} (hline : Text.IsPhrase line)
    (hheader : ¬ Definition.headerMark <+: line) (h : Field.ofLine line = .ok f) :
    f.IsParsed ∧ TypeName.IsToken f.typeName := by
  rw [Field.ofLine] at h
  split at h
  · rename_i d hread
    obtain rfl := Except.ok.inj h
    have hcut := Declaration.isCutFrom_of_read? hread
    have htoken : TypeName.IsToken (String.ofList d.typeName) :=
      .ofList hcut.typeName_ne hcut.typeName_chars hcut.typeName_prefix hline.mark_not_mem hheader
    obtain ⟨hparsed, htype⟩ := Declaration.isParsed_unvalued hcut htoken hline.mark_not_mem
    rw [Declaration.toField]
    cases hvalue : d.value with
    | none => exact ⟨hparsed, htype⟩
    | some value =>
      have hsubset := hcut.value_subset value hvalue
      refine ⟨hparsed.asConstant ?_, htype⟩
      rw [String.toList_ofList]
      exact
        { trimmed := Text.trim_trim value
          mark_not_mem := fun hc => hline.mark_not_mem (hsubset (Text.mem_of_mem_trim hc))
          newline_not_mem := fun hc => hline.newline_not_mem (hsubset (Text.mem_of_mem_trim hc)) }
  · cases h

end MessageSchema
