import MessageSchema.Bundle.Reader
import MessageSchema.Proofs.Field.Printed

/-!
Printed bundles. The canonical text of a legible bundle has one section a definition, and each
section holds the lines that the definition was printed on; so a bundle whose types are tokens is
read again field by field.
-/
namespace MessageSchema

namespace Definition

variable {d : Definition}

def IsLegible (d : Definition) : Prop := ∀ f ∈ d.fields, f.IsLegible

def printedFields (d : Definition) : List Field := d.constants ++ d.members

def fieldLines (d : Definition) : List Line := d.printedFields.map Field.printedLine

theorem mem_printedFields {f : Field} : f ∈ d.printedFields ↔ f ∈ d.fields := by
  rw [printedFields, constants, members, List.mem_append, List.mem_filter, List.mem_filter,
    ← and_or_left]
  cases f.isConstant <;> simp

theorem constantLines_append_memberLines (d : Definition) :
    d.constantLines ++ d.memberLines = d.fieldLines := by
  have hconst : d.constants.map Field.printedLine = d.constantLines :=
    List.map_congr_left fun f hf => if_pos (List.mem_filter.mp hf).2
  have hmember : d.members.map Field.printedLine = d.memberLines := by
    refine List.map_congr_left fun f hf => if_neg ?_
    simpa using (List.mem_filter.mp hf).2
  rw [fieldLines, printedFields, List.map_append, hconst, hmember]

theorem isEntry_of_mem_fieldLines (h : d.IsLegible) : ∀ l ∈ d.fieldLines, Section.IsEntry l := by
  intro l hl
  obtain ⟨f, hf, rfl⟩ := List.mem_map.mp hl
  exact Field.isEntry_printedLine (h f (mem_printedFields.mp hf))

theorem isEntry_headerLine (h : ∀ name, d.name = some name → Text.IsPhrase name.toList) :
    Section.IsEntry d.headerLine := by
  have hname : '\n' ∉ (d.name.getD "").toList ∧ '#' ∉ (d.name.getD "").toList := by
    cases hd : d.name with
    | none => decide
    | some name => exact ⟨(h name hd).newline_not_mem, (h name hd).mark_not_mem⟩
  refine ⟨?_, ?_, 'M', ?_, by decide, by decide⟩
  · simp [headerLine, headerMark, hname.1]
  · simp [headerLine, headerMark, hname.2]
  · simp [headerLine, headerMark]

end Definition

namespace Bundle

def rootSection (d : Definition) : List Line := d.fieldLines.map Text.trim

def otherSection (d : Definition) : List Line := (d.headerLine :: d.fieldLines).map Text.trim

/-- A bundle whose canonical text has a section for every definition. -/
structure IsLegible (b : Bundle) : Prop where
  fields : ∀ d ∈ b, d.IsLegible
  name : ∀ d ∈ b, ∀ name, d.name = some name → Text.IsPhrase name.toList

theorem filter_counts_map_trim {ls : List Line} (h : ∀ l ∈ ls, Section.IsEntry l) :
    (ls.map Text.trim).filter Section.counts = ls.map Text.trim := by
  rw [List.filter_eq_self]
  intro l hl
  obtain ⟨line, hline, rfl⟩ := List.mem_map.mp hl
  exact (h line hline).counts_trim

theorem filter_counts_putMembers (before : List Line) (d : Definition) :
    ((putMembers before d).map Text.trim).filter Section.counts =
      ((before ++ d.memberLines).map Text.trim).filter Section.counts := by
  rw [putMembers]
  split
  · rfl
  · simp [List.filter_append]

theorem newline_not_mem_putMembers {before : List Line} {d : Definition}
    (h : ∀ l ∈ before ++ d.memberLines, '\n' ∉ l) : ∀ l ∈ putMembers before d, '\n' ∉ l := by
  intro l hl
  rw [putMembers] at hl
  split at hl
  · exact h l hl
  · rw [List.mem_append, List.mem_cons] at hl
    rcases hl with hl | rfl | hl
    · exact h l (List.mem_append_left _ hl)
    · exact List.not_mem_nil
    · exact h l (List.mem_append_right _ hl)

theorem contentLines_rootLines {d : Definition} (h : d.IsLegible) :
    ((rootLines d).map Text.trim).filter Section.counts = rootSection d := by
  rw [rootLines, filter_counts_putMembers, Definition.constantLines_append_memberLines,
    filter_counts_map_trim (Definition.isEntry_of_mem_fieldLines h), rootSection]

theorem contentLines_otherLines {d : Definition} (h : d.IsLegible)
    (hname : ∀ name, d.name = some name → Text.IsPhrase name.toList) :
    ((otherLines d).map Text.trim).filter Section.counts =
      Definition.separator :: otherSection d := by
  have hentries : ∀ l ∈ d.headerLine :: d.fieldLines, Section.IsEntry l :=
    List.forall_mem_cons.mpr
      ⟨Definition.isEntry_headerLine hname, Definition.isEntry_of_mem_fieldLines h⟩
  have hseparator : Text.trim Definition.separator = Definition.separator := by decide
  have hcounts : Section.counts Definition.separator = true := by decide
  rw [otherLines, List.map_cons, List.filter_cons_of_neg (by simp), List.map_cons,
    hseparator, List.filter_cons_of_pos hcounts, filter_counts_putMembers, List.cons_append,
    Definition.constantLines_append_memberLines, filter_counts_map_trim hentries, otherSection]

theorem newline_not_mem_rootLines {d : Definition} (h : d.IsLegible) :
    ∀ l ∈ rootLines d, '\n' ∉ l := by
  apply newline_not_mem_putMembers
  rw [Definition.constantLines_append_memberLines]
  exact fun l hl => (Definition.isEntry_of_mem_fieldLines h l hl).newline_not_mem

theorem newline_not_mem_otherLines {d : Definition} (h : d.IsLegible)
    (hname : ∀ name, d.name = some name → Text.IsPhrase name.toList) :
    ∀ l ∈ otherLines d, '\n' ∉ l := by
  have hput : ∀ l ∈ putMembers (d.headerLine :: d.constantLines) d, '\n' ∉ l := by
    apply newline_not_mem_putMembers
    rw [List.cons_append, Definition.constantLines_append_memberLines]
    exact List.forall_mem_cons.mpr
      ⟨(Definition.isEntry_headerLine hname).newline_not_mem,
        fun l hl => (Definition.isEntry_of_mem_fieldLines h l hl).newline_not_mem⟩
  have hseparator : '\n' ∉ Definition.separator := by decide
  exact List.forall_mem_cons.mpr ⟨List.not_mem_nil, List.forall_mem_cons.mpr ⟨hseparator, hput⟩⟩

theorem isSeparator_of_mem_section {ls : List Line} (h : ∀ l ∈ ls, Section.IsEntry l) :
    ∀ l ∈ ls.map Text.trim, Section.isSeparator l = false := by
  intro l hl
  obtain ⟨line, hline, rfl⟩ := List.mem_map.mp hl
  exact (h line hline).isSeparator_trim

/-- The canonical text of a legible bundle has its definitions for sections. -/
theorem ofText_print {root : Definition} {others : Bundle}
    (h : IsLegible (root :: others)) :
    Section.ofText (print (root :: others)).toList =
      rootSection root :: others.map otherSection := by
  have hroot : root.IsLegible := h.fields root List.mem_cons_self
  have hfields : ∀ d ∈ others, d.IsLegible := fun d hd => h.fields d (List.mem_cons_of_mem _ hd)
  have hnames := fun d hd => h.name d (List.mem_cons_of_mem root hd)
  have hlines : ∀ l ∈ printLines (root :: others), '\n' ∉ l := by
    intro l hl
    rw [printLines, List.mem_append, List.mem_flatMap] at hl
    rcases hl with hl | ⟨d, hd, hl⟩
    · exact newline_not_mem_rootLines hroot l hl
    · exact newline_not_mem_otherLines (hfields d hd) (hnames d hd) l hl
  have hothers : ((others.flatMap otherLines).map Text.trim).filter Section.counts =
      (others.map otherSection).flatMap (Definition.separator :: ·) := by
    rw [List.map_flatMap, List.filter_flatMap, List.flatMap_map]
    exact List.flatMap_congr fun d hd => contentLines_otherLines (hfields d hd) (hnames d hd)
  have hcontent : Section.contentLines (print (root :: others)).toList =
      rootSection root ++ (others.map otherSection).flatMap (Definition.separator :: ·) := by
    rw [print, String.toList_ofList, Section.contentLines_trim, Section.contentLines_unlines hlines,
      printLines, List.map_append, List.filter_append, contentLines_rootLines hroot, hothers]
  rw [Section.ofText, hcontent]
  apply Section.splitOnP_separated (by decide)
  refine List.forall_mem_cons.mpr ⟨?_, fun ls hls => ?_⟩
  · exact isSeparator_of_mem_section (Definition.isEntry_of_mem_fieldLines hroot)
  · obtain ⟨d, hd, rfl⟩ := List.mem_map.mp hls
    apply isSeparator_of_mem_section
    exact List.forall_mem_cons.mpr ⟨Definition.isEntry_headerLine (hnames d hd),
      Definition.isEntry_of_mem_fieldLines (hfields d hd)⟩

end Bundle
end MessageSchema
