import MessageSchema.Bundle.Section
import MessageSchema.Proofs.Text.Trimming

/-!
The sections of a text that is put together from lines. Blanks at the ends of the text and of its
lines do not show in them, and lines that stand between separators come back section by section.
-/
namespace MessageSchema
namespace Section

def counts (line : Line) : Bool := line != [] && !isComment line

@[simp] theorem counts_nil : counts [] = false := rfl

theorem contentLines_eq (text : List Char) :
    contentLines text = ((Text.lines text).map Text.trim).filter counts := rfl

theorem contentLines_append_newline (before after : List Char) :
    contentLines (before ++ '\n' :: after) = contentLines before ++ contentLines after := by
  simp only [contentLines_eq, Text.lines, List.splitOn_append_cons_self, List.map_append,
    List.filter_append]

theorem contentLines_of_not_mem {line : Line} (h : '\n' ∉ line) :
    contentLines line = [Text.trim line].filter counts := by
  simp only [contentLines_eq, Text.lines, List.splitOn_eq_singleton h, List.map_cons, List.map_nil]

theorem contentLines_cons_of_blank {c : Char} (hc : Text.isBlank c = true) (text : List Char) :
    contentLines (c :: text) = contentLines text := by
  by_cases hnl : c = '\n'
  · subst hnl
    have hcut := contentLines_append_newline [] text
    have hnil : contentLines [] = [] := by decide
    rwa [List.nil_append, hnil, List.nil_append] at hcut
  by_cases hmem : '\n' ∈ text
  · obtain ⟨line, rest, rfl, hline⟩ := List.eq_append_cons_of_mem hmem
    have hcons : '\n' ∉ c :: line := by
      simpa only [List.mem_cons, not_or] using ⟨fun h => hnl h.symm, hline⟩
    rw [← List.cons_append, contentLines_append_newline, contentLines_append_newline,
      contentLines_of_not_mem hcons, contentLines_of_not_mem hline, Text.trim_cons_of_blank hc]
  · have hcons : '\n' ∉ c :: text := by
      simpa only [List.mem_cons, not_or] using ⟨fun h => hnl h.symm, hmem⟩
    rw [contentLines_of_not_mem hcons, contentLines_of_not_mem hmem, Text.trim_cons_of_blank hc]

theorem contentLines_append_of_blank {c : Char} (hc : Text.isBlank c = true) (text : List Char) :
    contentLines (text ++ [c]) = contentLines text := by
  -- From line to line, since the blank only reaches the last one.
  by_cases hmem : '\n' ∈ text
  · obtain ⟨line, rest, heq, hline⟩ := List.eq_append_cons_of_mem hmem
    have hlt : rest.length < text.length := by
      rw [heq, List.length_append, List.length_cons]
      omega
    rw [heq, List.append_assoc, List.cons_append, contentLines_append_newline,
      contentLines_append_newline, contentLines_append_of_blank hc rest]
  by_cases hnl : c = '\n'
  · subst hnl
    have hnil : contentLines [] = [] := by decide
    rw [contentLines_append_newline, hnil, List.append_nil]
  · have hsnoc : '\n' ∉ text ++ [c] := by
      simpa only [List.mem_append, List.mem_singleton, not_or] using ⟨hmem, fun h => hnl h.symm⟩
    rw [contentLines_of_not_mem hsnoc, contentLines_of_not_mem hmem, Text.trim_append_of_blank hc]
termination_by text.length

theorem contentLines_trim (text : List Char) : contentLines (Text.trim text) = contentLines text := by
  obtain ⟨before, after, heq, hbefore, hafter⟩ := Text.exists_eq_append_trim_append text
  have hfront : ∀ blanks rest : List Char, (∀ c ∈ blanks, Text.isBlank c = true) →
      contentLines (blanks ++ rest) = contentLines rest := by
    intro blanks rest h
    induction blanks with
    | nil => rfl
    | cons c blanks ih =>
      rw [List.cons_append, contentLines_cons_of_blank (h c List.mem_cons_self)]
      exact ih fun a ha => h a (List.mem_cons_of_mem c ha)
  have hback : ∀ rest blanks : List Char, (∀ c ∈ blanks, Text.isBlank c = true) →
      contentLines (rest ++ blanks) = contentLines rest := by
    intro rest blanks h
    induction blanks generalizing rest with
    | nil => rw [List.append_nil]
    | cons c blanks ih =>
      rw [List.append_cons, ih _ fun a ha => h a (List.mem_cons_of_mem c ha)]
      exact contentLines_append_of_blank (h c List.mem_cons_self) rest
  conv_rhs => rw [heq]
  rw [hback _ _ hafter, hfront _ _ hbefore]

theorem contentLines_unlines {ls : List Line} (h : ∀ l ∈ ls, '\n' ∉ l) :
    contentLines (Text.unlines ls) = (ls.map Text.trim).filter counts := by
  by_cases hne : ls = []
  · subst hne
    decide
  · rw [contentLines_eq, Text.lines, Text.unlines, List.splitOn_intercalate '\n' h hne]

/-- Lines between separators come back section by section. -/
theorem splitOnP_separated {separator : Line} (hsep : isSeparator separator = true)
    (first : List Line) (others : List (List Line))
    (h : ∀ ls ∈ first :: others, ∀ l ∈ ls, isSeparator l = false) :
    (first ++ others.flatMap (separator :: ·)).splitOnP isSeparator = first :: others := by
  induction others generalizing first with
  | nil =>
    rw [List.flatMap_nil, List.append_nil]
    exact List.splitOnP_eq_singleton (h first List.mem_cons_self)
  | cons second others ih =>
    have hfirst := h first List.mem_cons_self
    have hrest := ih second fun ls hls => h ls (List.mem_cons_of_mem first hls)
    rw [List.flatMap_cons, List.cons_append,
      List.splitOnP_append_cons_of_forall_mem hfirst separator hsep, hrest]

theorem mem_of_mem_splitOnP {α : Type} {p : α → Bool} {as piece : List α} {a : α}
    (hpiece : piece ∈ as.splitOnP p) (ha : a ∈ piece) : a ∈ as ∧ p a = false := by
  induction as generalizing piece with
  | nil =>
    rw [List.splitOnP_nil, List.mem_singleton] at hpiece
    simp [hpiece] at ha
  | cons first as ih =>
    rw [List.splitOnP_cons_eq_if_modifyHead] at hpiece
    by_cases hfirst : p first = true
    · rw [if_pos hfirst, List.mem_cons] at hpiece
      rcases hpiece with rfl | hpiece
      · exact absurd ha List.not_mem_nil
      · exact (ih hpiece ha).imp_left (List.mem_cons_of_mem first)
    · obtain ⟨head, pieces, hcut⟩ := List.exists_cons_of_ne_nil (List.splitOnP_ne_nil p as)
      rw [if_neg hfirst, hcut, List.modifyHead_cons, List.mem_cons] at hpiece
      rcases hpiece with rfl | hpiece
      · rcases List.mem_cons.mp ha with rfl | ha
        · exact ⟨List.mem_cons_self, by simpa using hfirst⟩
        · exact (ih (hcut ▸ List.mem_cons_self) ha).imp_left (List.mem_cons_of_mem first)
      · have hmem : piece ∈ as.splitOnP p := hcut ▸ List.mem_cons_of_mem head hpiece
        exact (ih hmem ha).imp_left (List.mem_cons_of_mem first)

theorem newline_not_mem_of_mem_ofText {text : List Char} {ls : List Line} (hls : ls ∈ ofText text) :
    ∀ l ∈ ls, '\n' ∉ l := by
  intro l hl hmem
  have hcontent := (mem_of_mem_splitOnP hls hl).1
  rw [contentLines_eq, List.mem_filter, List.mem_map] at hcontent
  obtain ⟨⟨line, hline, rfl⟩, -⟩ := hcontent
  rw [Text.lines, List.splitOn_eq_splitOnP] at hline
  have hnot := (mem_of_mem_splitOnP hline (Text.mem_of_mem_trim hmem)).2
  simp at hnot

/-! Entries of a section -/

/-- A line that is an entry of its section whatever blanks stand around it: it holds no comment
and it is not a separator. -/
structure IsEntry (line : Line) : Prop where
  newline_not_mem : '\n' ∉ line
  mark_not_mem : '#' ∉ line
  solid : ∃ c ∈ line, Text.isBlank c = false ∧ c ≠ '='

namespace IsEntry

variable {line : Line}

theorem solid_trim (h : IsEntry line) : ∃ c ∈ Text.trim line, c ≠ '=' := by
  obtain ⟨c, hmem, hblank, hne⟩ := h.solid
  obtain ⟨before, after, heq, hbefore, hafter⟩ := Text.exists_eq_append_trim_append line
  rw [heq, List.mem_append, List.mem_append] at hmem
  rcases hmem with (hmem | hmem) | hmem
  · simp [hbefore c hmem] at hblank
  · exact ⟨c, hmem, hne⟩
  · simp [hafter c hmem] at hblank

theorem mark_not_mem_trim (h : IsEntry line) : '#' ∉ Text.trim line :=
  fun hmem => h.mark_not_mem (Text.mem_of_mem_trim hmem)

theorem trim_ne_nil (h : IsEntry line) : Text.trim line ≠ [] := by
  obtain ⟨c, hmem, -⟩ := h.solid_trim
  exact List.ne_nil_of_mem hmem

theorem counts_trim (h : IsEntry line) : counts (Text.trim line) = true := by
  have hhead : (Text.trim line).head? ≠ some '#' :=
    fun hsome => h.mark_not_mem_trim (List.mem_of_head? hsome)
  simp [counts, isComment, h.trim_ne_nil, hhead]

theorem isSeparator_trim (h : IsEntry line) : isSeparator (Text.trim line) = false := by
  obtain ⟨c, hmem, hne⟩ := h.solid_trim
  rw [isSeparator, Bool.and_eq_false_iff, List.all_eq_false]
  exact .inr ⟨c, hmem, by simpa using hne⟩

theorem clean_trim (h : IsEntry line) : Text.clean (Text.trim line) = Text.trim line := by
  have hall : Text.uncomment (Text.trim line) = Text.trim line := by
    rw [Text.uncomment, List.takeWhile_eq_self_iff]
    intro c hc
    simpa using fun h' : c = '#' => h.mark_not_mem_trim (h' ▸ hc)
  rw [Text.clean, hall, Text.trim_trim]

end IsEntry

end Section
end MessageSchema
