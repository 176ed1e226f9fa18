import MessageSchema.Bundle.Printer
import MessageSchema.Proofs.Definition.Reading
import MessageSchema.Proofs.Field.Pieces

/-!
Printed fields. A legible field is printed on one line that is an entry of its section; when its
type is a token as well, the line declares the field that was printed.
-/
namespace MessageSchema

/-- A text that keeps its shape at the end of a line: no blanks at its ends, no comment in it. -/
structure Text.IsPhrase (cs : List Char) : Prop where
  trimmed : Text.trim cs = cs
  mark_not_mem : '#' ∉ cs
  newline_not_mem : '\n' ∉ cs

instance (cs : List Char) : Decidable (Text.IsPhrase cs) :=
  decidable_of_iff (Text.trim cs = cs ∧ '#' ∉ cs ∧ '\n' ∉ cs)
    ⟨fun ⟨h₁, h₂, h₃⟩ => ⟨h₁, h₂, h₃⟩, fun ⟨h₁, h₂, h₃⟩ => ⟨h₁, h₂, h₃⟩⟩

/-- A type name that is read as one piece, in a line that is no header. -/
structure TypeName.IsToken (name : String) : Prop where
  ne_empty : name.toList ≠ []
  solid : ∀ c ∈ name.toList, Text.isBlank c = false
  bracket_not_mem : '[' ∉ name.toList
  mark_not_mem : '#' ∉ name.toList
  no_header : ¬ Definition.headerMark <+: name.toList

theorem Text.all_solid_iff {cs : List Char} :
    (cs.all fun c => !isBlank c) = true ↔ ∀ c ∈ cs, isBlank c = false := by
  simp [List.all_eq_true]

instance (name : String) : Decidable (TypeName.IsToken name) :=
  decidable_of_iff (name.toList ≠ [] ∧ (name.toList.all fun c => !Text.isBlank c) = true ∧
      '[' ∉ name.toList ∧ '#' ∉ name.toList ∧ ¬ Definition.headerMark <+: name.toList)
    ⟨fun ⟨h₁, h₂, h₃, h₄, h₅⟩ => ⟨h₁, Text.all_solid_iff.mp h₂, h₃, h₄, h₅⟩,
      fun ⟨h₁, h₂, h₃, h₄, h₅⟩ => ⟨h₁, Text.all_solid_iff.mpr h₂, h₃, h₄, h₅⟩⟩

namespace Field

structure IsToken (name : String) : Prop where
  ne_empty : name.toList ≠ []
  solid : ∀ c ∈ name.toList, Text.isBlank c = false
  equals_not_mem : '=' ∉ name.toList
  mark_not_mem : '#' ∉ name.toList

instance (name : String) : Decidable (IsToken name) :=
  decidable_of_iff (name.toList ≠ [] ∧ (name.toList.all fun c => !Text.isBlank c) = true ∧
      '=' ∉ name.toList ∧ '#' ∉ name.toList)
    ⟨fun ⟨h₁, h₂, h₃, h₄⟩ => ⟨h₁, Text.all_solid_iff.mp h₂, h₃, h₄⟩,
      fun ⟨h₁, h₂, h₃, h₄⟩ => ⟨h₁, Text.all_solid_iff.mpr h₂, h₃, h₄⟩⟩

/-- A field whose line is an entry of its section. The type may be any phrase: after resolution it
is the name of a definition, and those may hold blanks. -/
structure IsLegible (f : Field) : Prop where
  typeName_ne : f.typeName.toList ≠ []
  typeName : Text.IsPhrase f.typeName.toList
  name : IsToken f.name
  constantText : f.isConstant = true → Text.IsPhrase f.constantText
  unbounded : f.isConstant = false → f.upperBound = none ∧ f.arrayUpperBound = none
  noDefault : f.isConstant = false → f.defaultValue = none

end Field

theorem Text.not_mem_of_solid {cs : List Char} (h : ∀ c ∈ cs, isBlank c = false) {c : Char}
    (hc : isBlank c = true) : c ∉ cs :=
  fun hmem => by simp [h c hmem] at hc

theorem TypeName.IsToken.isPhrase {name : String} (h : IsToken name) :
    Text.IsPhrase name.toList where
  trimmed := Text.trim_eq_self_of_solid h.solid
  mark_not_mem := h.mark_not_mem
  newline_not_mem := Text.not_mem_of_solid h.solid Text.isBlank_newline

namespace Field

variable {f : Field}

/-! Constants -/

theorem trim_constantLine (h : IsLegible f) :
    Text.trim f.constantLine = f.typeName.toList ++
      ' ' :: (f.name.toList ++ ' ' :: '=' :: Text.trimEnd (' ' :: f.constantText)) := by
  obtain ⟨c, cs, htype⟩ := List.exists_cons_of_ne_nil h.typeName_ne
  have hc : Text.isBlank c = false := Text.isBlank_head_of_trim (htype ▸ h.typeName.trimmed)
  have heq : f.constantLine =
      c :: ((cs ++ ' ' :: (f.name.toList ++ [' '])) ++ '=' :: ' ' :: f.constantText) := by
    simp [constantLine, htype]
  rw [heq, Text.trim_cons hc, Text.trimEnd_append_cons (by decide), htype]
  simp

theorem isEntry_constantLine (h : IsLegible f) (hconst : f.isConstant = true) :
    Section.IsEntry f.constantLine := by
  have htext := h.constantText hconst
  have hname : '\n' ∉ f.name.toList := Text.not_mem_of_solid h.name.solid Text.isBlank_newline
  obtain ⟨c, cs, hcons⟩ := List.exists_cons_of_ne_nil h.name.ne_empty
  have hmem : c ∈ f.name.toList := hcons ▸ List.mem_cons_self
  refine ⟨?_, ?_, c, ?_, h.name.solid c hmem, fun heq => h.name.equals_not_mem (heq ▸ hmem)⟩
  · simp [constantLine, h.typeName.newline_not_mem, hname, htext.newline_not_mem]
  · simp [constantLine, h.typeName.mark_not_mem, h.name.mark_not_mem, htext.mark_not_mem]
  · simp [constantLine, hmem]

theorem headerName?_constantLine (h : IsLegible f) (htype : TypeName.IsToken f.typeName) :
    Definition.headerName? (Text.trim f.constantLine) = none := by
  rw [trim_constantLine h, Definition.headerName?_eq_none_iff]
  exact Definition.not_header_append htype.no_header (by decide) _

theorem isTypeChar_of_isToken (htype : TypeName.IsToken f.typeName) :
    ∀ c ∈ f.typeName.toList, Declaration.isTypeChar c = true := by
  intro c hc
  have hne : c ≠ '[' := fun heq => htype.bracket_not_mem (heq ▸ hc)
  simp [Declaration.isTypeChar, htype.solid c hc, hne]

theorem isNameChar_of_isToken (hname : IsToken f.name) :
    ∀ c ∈ f.name.toList, Declaration.isNameChar c = true := by
  intro c hc
  have hne : c ≠ '=' := fun heq => hname.equals_not_mem (heq ▸ hc)
  simp [Declaration.isNameChar, hname.solid c hc, hne]

/-- A printed constant is read with its value as it was written and without anything else that
was known of it. -/
theorem ofLine_constantLine (h : IsLegible f) (hconst : f.isConstant = true)
    (htype : TypeName.IsToken f.typeName) :
    Field.ofLine (Text.trim f.constantLine) =
      .ok ((plain (TypeName.normalize f.typeName) f.name).asConstant
        (String.ofList f.constantText)) := by
  have hread : Declaration.read? (Text.trim f.constantLine) = some
      { typeName := f.typeName.toList, shape := .single, name := f.name.toList,
        value := some (Text.trimEnd (' ' :: f.constantText)) } := by
    rw [trim_constantLine h]
    have hblank : ∀ c ∈ [' '], Text.isBlank c = true := List.forall_mem_singleton.mpr (by decide)
    apply Declaration.read?_append [' '] (' ' :: '=' :: Text.trimEnd (' ' :: f.constantText))
      htype.ne_empty (isTypeChar_of_isToken htype) _ _ (List.cons_ne_nil _ _) hblank
      h.name.ne_empty (isNameChar_of_isToken h.name) _ (Declaration.readValue_equals hblank _)
    · simp only [List.head?_cons, Option.mem_some_iff, forall_eq']
      decide
    · exact Declaration.readShape_of_not_bracket (by simp)
    · simp only [List.head?_cons, Option.mem_some_iff, forall_eq']
      decide
  have hvalue : Text.trim (Text.trimEnd (' ' :: f.constantText)) = f.constantText := by
    rw [Text.trim_trimEnd, Text.trim_cons_of_blank (by decide), (h.constantText hconst).trimmed]
  simp [Field.ofLine, hread, Declaration.toField, Declaration.unvalued, hvalue]

/-! Members -/

def shapeText (f : Field) : List Char := if f.isArray then f.brackets else []

theorem memberLine_eq (h : IsLegible f) (hmember : f.isConstant = false) :
    f.memberLine = f.typeName.toList ++ (f.shapeText ++ ' ' :: f.name.toList) := by
  simp [memberLine, shapeText, bound, defaultText, (h.unbounded hmember).1, h.noDefault hmember]

theorem mem_shapeText (h : IsLegible f) (hmember : f.isConstant = false) {c : Char}
    (hc : c ∈ f.shapeText) : c = '[' ∨ c = ']' ∨ c.isDigit = true := by
  rw [shapeText] at hc
  split at hc
  · rw [brackets, (h.unbounded hmember).2] at hc
    cases hlength : f.arrayLength with
    | none => simp [hlength] at hc; tauto
    | some length =>
      have hdigit := @Decimal.isDigit_of_mem_ofNat length.toNat c
      simp only [hlength, List.cons_append, List.mem_cons, List.mem_append, List.not_mem_nil,
        or_false] at hc
      tauto
  · exact absurd hc List.not_mem_nil

theorem trim_memberLine (h : IsLegible f) (hmember : f.isConstant = false) :
    Text.trim f.memberLine = f.memberLine := by
  obtain ⟨c, cs, htype⟩ := List.exists_cons_of_ne_nil h.typeName_ne
  have hc : Text.isBlank c = false := Text.isBlank_head_of_trim (htype ▸ h.typeName.trimmed)
  have heq : f.memberLine = c :: ((cs ++ (f.shapeText ++ [' '])) ++ f.name.toList) := by
    simp [memberLine_eq h hmember, htype]
  rw [heq, Text.trim_cons hc, Text.trimEnd_append_of_solid h.name.ne_empty h.name.solid]

theorem isEntry_memberLine (h : IsLegible f) (hmember : f.isConstant = false) :
    Section.IsEntry f.memberLine := by
  have hname : '\n' ∉ f.name.toList := Text.not_mem_of_solid h.name.solid Text.isBlank_newline
  have hshape {c : Char} (hc : c = '\n' ∨ c = '#') : c ∉ f.shapeText := by
    intro hmem
    rcases hc with rfl | rfl <;>
      exact absurd (mem_shapeText h hmember hmem) (by decide)
  obtain ⟨c, cs, hcons⟩ := List.exists_cons_of_ne_nil h.name.ne_empty
  have hmem : c ∈ f.name.toList := hcons ▸ List.mem_cons_self
  rw [memberLine_eq h hmember]
  refine ⟨?_, ?_, c, ?_, h.name.solid c hmem, fun heq => h.name.equals_not_mem (heq ▸ hmem)⟩
  · simp [h.typeName.newline_not_mem, hname, hshape (.inl rfl)]
  · simp [h.typeName.mark_not_mem, h.name.mark_not_mem, hshape (.inr rfl)]
  · simp [hmem]

theorem exists_shapeText_append (f : Field) (rest : List Char) :
    ∃ c cs, f.shapeText ++ ' ' :: rest = c :: cs ∧ (c = '[' ∨ c = ' ') := by
  rw [shapeText]
  split
  · rw [brackets]
    split <;> exact ⟨'[', _, rfl, .inl rfl⟩
  · exact ⟨' ', rest, rfl, .inr rfl⟩

theorem headerName?_memberLine (h : IsLegible f) (hmember : f.isConstant = false)
    (htype : TypeName.IsToken f.typeName) :
    Definition.headerName? (Text.trim f.memberLine) = none := by
  obtain ⟨c, cs, heq, hc⟩ := exists_shapeText_append f f.name.toList
  rw [trim_memberLine h hmember, Definition.headerName?_eq_none_iff, memberLine_eq h hmember, heq]
  apply Definition.not_header_append htype.no_header
  rcases hc with rfl | rfl <;> decide

/-- A member that a line can declare: beside its type and its name there are at most brackets, and
the alias of a type only stands in front of those. -/
structure IsDeclarable (f : Field) : Prop where
  isComplex : f.isComplex = !TypeName.isBuiltin f.typeName
  value : f.value = none
  valueText : f.valueText = none
  arrayLength : f.isArray = false → f.arrayLength = none
  spelling : f.isArray = false → TypeName.normalize f.typeName = f.typeName

def shape (f : Field) : Shape :=
  match f.isArray, f.arrayLength with
  | false, _ => .single
  | true, none => .unbounded
  | true, some length => .fixed length

theorem readShape_shapeText (hbound : f.arrayUpperBound = none) (rest : List Char) :
    Declaration.readShape (f.shapeText ++ ' ' :: rest) = some (f.shape, ' ' :: rest) := by
  rw [shapeText, shape]
  cases f.isArray with
  | false => exact Declaration.readShape_of_not_bracket (by simp)
  | true =>
    rw [if_pos rfl, brackets, hbound]
    cases f.arrayLength with
    | none => exact Declaration.readShape_unbounded _
    | some length => simpa using Declaration.readShape_fixed length (' ' :: rest)

theorem toField_of_isDeclarable (h : IsLegible f) (hmember : f.isConstant = false)
    (hdecl : IsDeclarable f) :
    Declaration.toField
      { typeName := f.typeName.toList, shape := f.shape, name := f.name.toList, value := none } =
        f := by
  have hbounds := h.unbounded hmember
  have hdefault := h.noDefault hmember
  obtain ⟨hcomplex, hvalue, htext, hlength, hspelling⟩ := hdecl
  obtain ⟨typeName, name, isComplex, isArray, arrayLength, isConstant, value, valueText, upperBound,
    arrayUpperBound, defaultValue⟩ := f
  simp only at hmember hbounds hdefault hcomplex hvalue htext hlength hspelling
  obtain ⟨rfl, rfl⟩ := hbounds
  subst hmember hdefault hcomplex hvalue htext
  cases isArray with
  | false =>
    obtain rfl : arrayLength = none := hlength rfl
    simp [Declaration.toField, Declaration.unvalued, shape, plain, hspelling rfl]
  | true =>
    cases arrayLength <;>
      simp [Declaration.toField, Declaration.unvalued, shape, plain, asArray]

/-- A printed member is read as it was. -/
theorem ofLine_memberLine (h : IsLegible f) (hmember : f.isConstant = false)
    (htype : TypeName.IsToken f.typeName) (hdecl : IsDeclarable f) :
    Field.ofLine (Text.trim f.memberLine) = .ok f := by
  have hread : Declaration.read? (Text.trim f.memberLine) = some
      { typeName := f.typeName.toList, shape := f.shape, name := f.name.toList, value := none } := by
    have hblank : ∀ c ∈ [' '], Text.isBlank c = true := List.forall_mem_singleton.mpr (by decide)
    have hshape := readShape_shapeText (h.unbounded hmember).2 f.name.toList
    obtain ⟨c, cs, heq, hc⟩ := exists_shapeText_append f f.name.toList
    rw [trim_memberLine h hmember, memberLine_eq h hmember]
    apply Declaration.read?_append [' '] [] htype.ne_empty (isTypeChar_of_isToken htype) _ _
      (List.cons_ne_nil _ _) hblank h.name.ne_empty (isNameChar_of_isToken h.name) _ rfl
    · rw [heq]
      simp only [List.head?_cons, Option.mem_some_iff, forall_eq']
      rcases hc with rfl | rfl <;> decide
    · rw [hshape, List.append_nil]
      rfl
    · simp
  simp only [Field.ofLine, hread, toField_of_isDeclarable h hmember hdecl]

/-! Either kind of field -/

def printedLine (f : Field) : Line := if f.isConstant then f.constantLine else f.memberLine

/-- What is left of a field when it is printed and read again. A constant keeps its type, without an
alias, its name and the text of its value. -/
def reread (f : Field) : Field :=
  if f.isConstant then
    (plain (TypeName.normalize f.typeName) f.name).asConstant (String.ofList f.constantText)
  else f

theorem reread_of_member (hmember : f.isConstant = false) : f.reread = f :=
  if_neg (by simp [hmember])

theorem typeName_reread (hconst : f.isConstant = true) :
    f.reread.typeName = TypeName.normalize f.typeName := by
  rw [reread, if_pos hconst]
  rfl

theorem name_reread (f : Field) : f.reread.name = f.name := by
  rw [reread]
  split <;> rfl

theorem constantText_reread (f : Field) : f.reread.constantText = f.constantText := by
  rw [reread]
  split
  · rw [constantText_asConstant, String.toList_ofList]
  · rfl

theorem isConstant_reread (f : Field) : f.reread.isConstant = f.isConstant := by
  cases hkind : f.isConstant with
  | true =>
    rw [reread, if_pos hkind]
    rfl
  | false => rw [reread_of_member hkind, hkind]

theorem isEntry_printedLine (h : IsLegible f) : Section.IsEntry f.printedLine := by
  cases hkind : f.isConstant with
  | true =>
    rw [printedLine, if_pos hkind]
    exact isEntry_constantLine h hkind
  | false =>
    rw [printedLine, if_neg (by simp [hkind])]
    exact isEntry_memberLine h hkind

theorem headerName?_printedLine (h : IsLegible f) (htype : TypeName.IsToken f.typeName) :
    Definition.headerName? (Text.trim f.printedLine) = none := by
  cases hkind : f.isConstant with
  | true =>
    rw [printedLine, if_pos hkind]
    exact headerName?_constantLine h htype
  | false =>
    rw [printedLine, if_neg (by simp [hkind])]
    exact headerName?_memberLine h hkind htype

theorem ofLine_printedLine (h : IsLegible f) (htype : TypeName.IsToken f.typeName)
    (hdecl : f.isConstant = false → IsDeclarable f) :
    Field.ofLine (Text.trim f.printedLine) = .ok f.reread := by
  cases hkind : f.isConstant with
  | true =>
    rw [printedLine, reread, if_pos hkind, if_pos hkind]
    exact ofLine_constantLine h hkind htype
  | false =>
    have hnot : ¬ f.isConstant = true := by simp [hkind]
    rw [printedLine, reread, if_neg hnot, if_neg hnot]
    exact ofLine_memberLine h hkind htype (hdecl hkind)

end Field
end MessageSchema
