import MessageSchema.Proofs.Field.Read

/-!
Definitions as they are read. Each line of a section leaves the definition so far as one that can be
printed and read again.
-/
namespace MessageSchema
namespace Definition

variable {d d' : Definition} {line : Line}

/-- A definition with parsed fields, whose name, if there is one, a header can give. -/
structure IsParsed (d : Definition) : Prop where
  fields : ∀ f ∈ d.fields, f.IsParsed
  name : ∀ name, d.name = some name → name.toList ≠ [] ∧ Text.IsPhrase name.toList

theorem IsParsed.isLiteralFree (h : d.IsParsed) : d.IsLiteralFree :=
  fun f hf => (h.fields f hf).literalFree

theorem isPhrase_of_mem_cleanLines {ls : List Line} (h : ∀ l ∈ ls, '\n' ∉ l) :
    ∀ l ∈ cleanLines ls, Text.IsPhrase l := by
  intro l hl
  obtain ⟨line, hline, rfl⟩ := List.mem_map.mp (List.mem_filter.mp hl).1
  exact
    { trimmed := Text.trim_trim _
      mark_not_mem := fun hc => Text.mark_not_mem_uncomment line (Text.mem_of_mem_trim hc)
      newline_not_mem := fun hc =>
        h line hline ((List.takeWhile_prefix _).subset (Text.mem_of_mem_trim hc)) }

theorem putName_eq_ok_iff {name : Line} :
    d.putName name = .ok d' ↔
      name ≠ [] ∧ d.name = none ∧ d' = { d with name := some (String.ofList name) } := by
  rw [putName]
  by_cases hempty : name = []
  · simp [hempty]
  · cases d.name with
    | none => simp [hempty, eq_comm]
    | some first => simp [hempty]

theorem exists_of_headerName? {name : Line} (h : headerName? line = some name) :
    ∃ rest, line = headerMark ++ rest ∧ name = Text.trim rest := by
  rw [headerName?, Option.map_eq_some_iff] at h
  obtain ⟨rest, hrest, htrim⟩ := h
  exact ⟨rest, (List.isPrefixOf?_eq_some_iff_append_eq.mp hrest).symm, htrim.symm⟩

theorem forall_mem_fields_putLine {P : Field → Prop} (hd : ∀ f ∈ d.fields, P f)
    (hline : ∀ f, ¬ headerMark <+: line → Field.ofLine line = .ok f → P f)
    (h : d.putLine line = .ok d') : ∀ f ∈ d'.fields, P f := by
  rw [putLine] at h
  cases hheader : headerName? line with
  | some name =>
    simp only [hheader] at h
    obtain ⟨-, -, rfl⟩ := putName_eq_ok_iff.mp h
    exact hd
  | none =>
    simp only [hheader] at h
    obtain ⟨f, hfield, rfl⟩ := Attempts.map_eq_ok_iff.mp h
    rw [List.forall_mem_append, List.forall_mem_singleton]
    exact ⟨hd, hline f (headerName?_eq_none_iff.mp hheader) hfield⟩

theorem name_putLine {name : String} (h : d.putLine line = .ok d') (hname : d'.name = some name) :
    d.name = some name ∨
      ∃ rest, line = headerMark ++ rest ∧ name.toList = Text.trim rest ∧ name.toList ≠ [] := by
  rw [putLine] at h
  cases hheader : headerName? line with
  | some found =>
    simp only [hheader] at h
    obtain ⟨hne, -, rfl⟩ := putName_eq_ok_iff.mp h
    obtain rfl := Option.some.inj hname
    obtain ⟨rest, rfl, rfl⟩ := exists_of_headerName? hheader
    rw [String.toList_ofList]
    exact .inr ⟨rest, rfl, rfl, hne⟩
  | none =>
    simp only [hheader] at h
    obtain ⟨f, -, rfl⟩ := Attempts.map_eq_ok_iff.mp h
    exact .inl hname

theorem isParsed_putLine (hline : Text.IsPhrase line) (hd : d.IsParsed)
    (h : d.putLine line = .ok d') : d'.IsParsed where
  fields := forall_mem_fields_putLine hd.fields
    (fun _ hheader hfield => (Field.isParsed_of_ofLine hline hheader hfield).1) h
  name name hname := by
    rcases name_putLine h hname with hold | ⟨rest, rfl, htrim, hne⟩
    · exact hd.name name hold
    · have hsubset : ∀ c ∈ Text.trim rest, c ∈ headerMark ++ rest :=
        fun c hc => List.mem_append_right _ (Text.mem_of_mem_trim hc)
      refine ⟨hne, ?_⟩
      rw [htrim]
      exact
        { trimmed := Text.trim_trim rest
          mark_not_mem := fun hc => hline.mark_not_mem (hsubset _ hc)
          newline_not_mem := fun hc => hline.newline_not_mem (hsubset _ hc) }

theorem isParsed_ofLines {ls : List Line} (hls : ∀ l ∈ ls, '\n' ∉ l) (h : ofLines ls = .ok d) :
    d.IsParsed := by
  have hempty : IsParsed { name := none, fields := [] } :=
    { fields := fun f hf => absurd hf List.not_mem_nil
      name := fun name hname => absurd hname (Option.some_ne_none name).symm }
  apply Attempts.foldlM_preserves _ hempty h
  intro l hl d d' hd hstep
  exact isParsed_putLine (isPhrase_of_mem_cleanLines hls l hl) hd hstep

end Definition
end MessageSchema
