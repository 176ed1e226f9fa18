import MessageSchema.Proofs.Bundle.Parsed

/-!
Texts put together with a separator between them. Each half is read on its own, and what is read
from the second half joins the first but for the definitions that occur there already.
-/
namespace MessageSchema

namespace Section

variable {separator : Line}

theorem eq_of_mem_separator (h : isSeparator separator = true) : ∀ c ∈ separator, c = '=' := by
  rw [isSeparator, Bool.and_eq_true, List.all_eq_true] at h
  exact fun c hc => beq_iff_eq.mp (h.2 c hc)

theorem contentLines_separator (h : isSeparator separator = true) :
    contentLines separator = [separator] := by
  have heq := eq_of_mem_separator h
  have hsolid : ∀ c ∈ separator, Text.isBlank c = false := by
    intro c hc
    rw [heq c hc]
    decide
  have hnewline : '\n' ∉ separator := fun hc => absurd (heq _ hc) (by decide)
  have hmark : separator.head? ≠ some '#' :=
    fun hsome => absurd (heq _ (List.mem_of_head? hsome)) (by decide)
  have hne : separator ≠ [] := by
    rintro rfl
    exact absurd h (by decide)
  have hcounts : counts separator = true := by simp [counts, isComment, hne, hmark]
  rw [contentLines_of_not_mem hnewline, Text.trim_eq_self_of_solid hsolid,
    List.filter_cons_of_pos hcounts, List.filter_nil]

/-- The sections before a separator come before those behind it, wherever the lines at the seam
begin and end. -/
theorem ofText_append_separator (h : isSeparator separator = true) (before after : List Char) :
    ofText (before ++ '\n' :: (separator ++ '\n' :: after)) = ofText before ++ ofText after := by
  rw [ofText, contentLines_append_newline, contentLines_append_newline, contentLines_separator h,
    List.singleton_append, List.splitOnP_append_cons _ _ h, ofText, ofText]

end Section

namespace Bundle

theorem isLiteralFree_of_mapM_ofLines {sections : List (List Line)} {b : Bundle}
    (hlines : ∀ ls ∈ sections, ∀ l ∈ ls, '\n' ∉ l)
    (h : sections.mapM Definition.ofLines = .ok b) : ∀ d ∈ b, d.IsLiteralFree := by
  intro d hd
  obtain ⟨ls, hls, hread⟩ := Attempts.exists_source_of_mapM_eq_ok h d hd
  exact (Definition.isParsed_ofLines (hlines ls hls) hread).isLiteralFree

open Classical in
theorem ofSections_append {sections sections' : List (List Line)}
    (hlines : ∀ ls ∈ sections, ∀ l ∈ ls, '\n' ∉ l)
    (hlines' : ∀ ls ∈ sections', ∀ l ∈ ls, '\n' ∉ l) :
    ofSections (sections ++ sections') = do
      let b ← ofSections sections
      let c ← ofSections sections'
      return b ++ c.filter fun d => d ∉ b := by
  simp only [ofSections, List.mapM_append]
  cases hb : sections.mapM Definition.ofLines with
  | error e => rfl
  | ok b =>
    cases hc : sections'.mapM Definition.ofLines with
    | error e => rfl
    | ok c =>
      have happend := eraseDups_append (isLiteralFree_of_mapM_ofLines hlines hb)
        (isLiteralFree_of_mapM_ofLines hlines' hc)
      exact congrArg Except.ok happend

theorem ofText_true (text : String) : ofText true text = ofTextAsWritten text := by
  rw [ofText]
  cases ofTextAsWritten text <;> rfl

open Classical in
/-- With a separator between them two texts are read one after the other. The first failure is that
of the whole, and else the definitions of the second text that do not occur in the first come behind
those of the first. -/
theorem ofText_join {separator : String} (h : Section.isSeparator separator.toList = true)
    (before after : String) :
    ofText true (before ++ "\n" ++ separator ++ "\n" ++ after) = do
      let b ← ofText true before
      let c ← ofText true after
      return b ++ c.filter fun d => d ∉ b := by
  have htext : (before ++ "\n" ++ separator ++ "\n" ++ after).toList =
      before.toList ++ '\n' :: (separator.toList ++ '\n' :: after.toList) := by simp
  rw [ofText_true, ofText_true, ofText_true, ofTextAsWritten, htext,
    Section.ofText_append_separator h]
  exact ofSections_append (fun ls hls => Section.newline_not_mem_of_mem_ofText hls)
    fun ls hls => Section.newline_not_mem_of_mem_ofText hls

/-- Two texts that both define one type: the first ends with a line feed and the second starts with
a carriage return. -/
theorem ofText_join_repeated :
    Section.isSeparator "=".toList = true ∧
      ofText true ("int32 x\n===\nMSG: p/A\nbool y\n" ++ "\n" ++ "=" ++ "\n" ++
        "\r\nMSG: p/A\nbool y # again\n==\nMSG: p/B") =
        .ok [⟨none, [.plain "int32" "x"]⟩, ⟨some "p/A", [.plain "bool" "y"]⟩, ⟨some "p/B", []⟩] := by
  have hbefore : ofText true "int32 x\n===\nMSG: p/A\nbool y\n" =
      .ok [⟨none, [.plain "int32" "x"]⟩, ⟨some "p/A", [.plain "bool" "y"]⟩] := rfl
  have hafter : ofText true "\r\nMSG: p/A\nbool y # again\n==\nMSG: p/B" =
      .ok [⟨some "p/A", [.plain "bool" "y"]⟩, ⟨some "p/B", []⟩] := rfl
  refine ⟨by decide, (ofText_join (by decide) _ _).trans ?_⟩
  rw [hbefore, hafter]
  simp [bind, Except.bind, pure, Except.pure]

end Bundle
end MessageSchema
