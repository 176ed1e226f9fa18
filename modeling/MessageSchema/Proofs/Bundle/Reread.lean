import MessageSchema.Proofs.Bundle.Printed

/-!
Canonical text read again. When the types of a legible bundle are tokens, reading its canonical
text gives back every definition but the name of the root, with constants in front and without the
repetitions that have come up.
-/
namespace MessageSchema

namespace Definition

variable {d : Definition}

/-- Every field of the definition is declared by its printed line. -/
structure IsReadable (d : Definition) : Prop where
  typeName : ∀ f ∈ d.fields, TypeName.IsToken f.typeName
  member : ∀ f ∈ d.fields, f.isConstant = false → f.IsDeclarable

/-- What is left of a definition when it is printed under a header and read again. -/
def reread (d : Definition) : Definition :=
  { name := d.name, fields := d.printedFields.map Field.reread }

theorem constants_reread (d : Definition) : d.reread.constants = d.constants.map Field.reread := by
  have hkind : (fun f : Field => f.isConstant) ∘ Field.reread = fun f => f.isConstant :=
    funext Field.isConstant_reread
  rw [constants, reread, List.filter_map, hkind, printedFields, List.filter_append, constants,
    members, List.filter_filter, List.filter_filter]
  simp

theorem map_reread_members (d : Definition) : d.members.map Field.reread = d.members := by
  refine (List.map_congr_left fun f hf => ?_).trans (List.map_id _)
  exact Field.reread_of_member (by simpa using (List.mem_filter.mp hf).2)

theorem members_reread (d : Definition) : d.reread.members = d.members := by
  have hkind : (fun f : Field => !f.isConstant) ∘ Field.reread = fun f => !f.isConstant :=
    funext fun f => congrArg not f.isConstant_reread
  have hmembers : d.printedFields.filter (fun f => !f.isConstant) = d.members := by
    rw [printedFields, List.filter_append, constants, members, List.filter_filter,
      List.filter_filter]
    simp
  rw [members, reread, List.filter_map, hkind, hmembers, map_reread_members]

/-- The root is printed without a header and loses its name. -/
def rereadRoot (d : Definition) : Definition := { d.reread with name := none }

theorem foldlM_fieldLines (h : d.IsLegible) (hread : d.IsReadable) (start : Definition) :
    (d.fieldLines.map Text.trim).foldlM putLine start =
      .ok { start with fields := start.fields ++ d.printedFields.map Field.reread } := by
  rw [fieldLines, List.map_map]
  apply foldlM_putLine_map
  · intro f hf
    have hmem := mem_printedFields.mp hf
    exact Field.headerName?_printedLine (h f hmem) (hread.typeName f hmem)
  · intro f hf
    have hmem := mem_printedFields.mp hf
    exact Field.ofLine_printedLine (h f hmem) (hread.typeName f hmem) (hread.member f hmem)

theorem ofLines_rootSection (h : d.IsLegible) (hread : d.IsReadable) :
    ofLines (Bundle.rootSection d) = .ok d.rereadRoot := by
  rw [Bundle.rootSection, ofLines_trim (isEntry_of_mem_fieldLines h), foldlM_fieldLines h hread]
  rfl

theorem trim_headerLine (d : Definition) :
    Text.trim d.headerLine = headerMark ++ Text.trimEnd (' ' :: (d.name.getD "").toList) := by
  have hline : d.headerLine = 'M' :: (['S', 'G'] ++ ':' :: ' ' :: (d.name.getD "").toList) := rfl
  rw [hline, Text.trim_cons (by decide), Text.trimEnd_append_cons (by decide)]
  rfl

theorem putLine_headerLine {name : String} (hname : d.name = some name)
    (hphrase : Text.IsPhrase name.toList) (hne : name.toList ≠ []) (fields : List Field) :
    putLine { name := none, fields } (Text.trim d.headerLine) = .ok { name := some name, fields } := by
  have htrim : Text.trim (Text.trimEnd (' ' :: name.toList)) = name.toList := by
    rw [Text.trim_trimEnd, Text.trim_cons_of_blank (by decide), hphrase.trimmed]
  rw [trim_headerLine, hname, Option.getD_some, putLine_header (by rwa [htrim]), htrim,
    String.ofList_toList]

theorem ofLines_otherSection (h : d.IsLegible) (hread : d.IsReadable) {name : String}
    (hname : d.name = some name) (hphrase : Text.IsPhrase name.toList) (hne : name.toList ≠ []) :
    ofLines (Bundle.otherSection d) = .ok d.reread := by
  have hheader : Section.IsEntry d.headerLine := by
    apply isEntry_headerLine
    intro other hother
    obtain rfl : name = other := Option.some.inj (hname ▸ hother)
    exact hphrase
  have hentries : ∀ l ∈ d.headerLine :: d.fieldLines, Section.IsEntry l :=
    List.forall_mem_cons.mpr ⟨hheader, isEntry_of_mem_fieldLines h⟩
  rw [Bundle.otherSection, ofLines_trim hentries, List.map_cons, List.foldlM_cons,
    putLine_headerLine hname hphrase hne, Attempts.ok_bind, foldlM_fieldLines h hread, reread, hname]
  rfl

end Definition

namespace Bundle

def reread : Bundle → Bundle
  | [] => []
  | root :: others => root.rereadRoot :: others.map Definition.reread

/-- Reading the canonical text gives every definition again. -/
theorem ofTextAsWritten_print {root : Definition} {others : Bundle}
    (h : IsLegible (root :: others)) (hread : ∀ d ∈ root :: others, d.IsReadable)
    (hnamed : ∀ d ∈ others, ∃ name, d.name = some name ∧ name.toList ≠ []) :
    ofTextAsWritten (print (root :: others)) = .ok (reread (root :: others)).eraseDups := by
  have hroot := Definition.ofLines_rootSection (h.fields root List.mem_cons_self)
    (hread root List.mem_cons_self)
  have hothers : (others.map otherSection).mapM Definition.ofLines =
      .ok (others.map Definition.reread) := by
    rw [List.mapM_map]
    apply Attempts.mapM_eq_ok_map
    intro d hd
    have hmem := List.mem_cons_of_mem root hd
    obtain ⟨name, hname, hne⟩ := hnamed d hd
    exact Definition.ofLines_otherSection (h.fields d hmem) (hread d hmem) hname
      (h.name d hmem name hname) hne
  rw [ofTextAsWritten, ofText_print h, ofSections, List.mapM_cons, hroot, Attempts.ok_bind, hothers]
  rfl

end Bundle
end MessageSchema
