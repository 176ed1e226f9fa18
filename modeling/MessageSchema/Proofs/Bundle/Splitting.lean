import MessageSchema.Proofs.Bundle.Layout

/-!
Splitting a text into sections. The sections in turn, with a boundary between neighbours, hold what
the rows of the text hold: nothing is lost, written twice or moved.
-/
namespace MessageSchema

namespace Text

def withoutReturn (line : Line) : Line := if line.getLast? = some '\r' then line.dropLast else line

/-- The lines with their ends taken off: a line feed, or a carriage return and a line feed. Behind the
last line feed there is a line only when a character stands there. -/
def rows (text : List Char) : List Line :=
  (lines text).dropLast.map withoutReturn ++ (lines text).getLast?.toList.filter (· ≠ [])

/-- A carriage return at the very end of a text is part of its last line. -/
example : rows ['a', '\r', '\n', '\r', '\n', 'b', '\r'] = [['a'], [], ['b', '\r']] := by decide

theorem trim_withoutReturn (line : Line) : trim (withoutReturn line) = trim line := by
  unfold withoutReturn
  split
  case isTrue hreturn =>
    have hline : line.dropLast ++ ['\r'] = line := List.dropLast_append_getLast? '\r' hreturn
    conv_rhs => rw [← hline]
    exact (trim_append_of_blank (by decide) line.dropLast).symm
  case isFalse => rfl

end Text

namespace Section

theorem filter_counts_rows (text : List Char) :
    ((Text.rows text).map Text.trim).filter counts = contentLines text := by
  obtain ⟨init, last, hcut⟩ :=
    (List.eq_nil_or_concat' (Text.lines text)).resolve_left (Text.lines_ne_nil text)
  have hinit : (init.map Text.withoutReturn).map Text.trim = init.map Text.trim := by
    rw [List.map_map]
    exact List.map_congr_left fun line _ => Text.trim_withoutReturn line
  rw [contentLines_eq, Text.rows, hcut, List.dropLast_concat, List.getLast?_concat, List.map_append,
    List.map_append, hinit, List.filter_append, List.filter_append]
  congr 1
  cases last with
  | nil => rfl
  | cons c cs => simp

def mark (line : Line) : Item := if isSeparator line then .boundary else .content line

theorem mark_eq_boundary_iff {line : Line} : mark line = .boundary ↔ isSeparator line = true := by
  unfold mark
  split <;> simp_all

/-- What a row gives: nothing when it is blank or all comment, a boundary when it is made of equals
signs, and else its line without the blanks at the ends. -/
def Item.ofRow? (row : Line) : Option Item :=
  let line := Text.trim row
  if line = [] ∨ line.head? = some '#' then none
  else if line.all (· == '=') then some .boundary
  else some (.content line)

theorem counts_iff {line : Line} : counts line = true ↔ line ≠ [] ∧ line.head? ≠ some '#' := by
  simp [counts, isComment]

theorem isSeparator_of_ne_nil {line : Line} (hne : line ≠ []) :
    isSeparator line = line.all (· == '=') := by
  simp [isSeparator, hne]

theorem ofRow?_eq (row : Line) : Item.ofRow? row =
    if counts (Text.trim row) then some (mark (Text.trim row)) else none := by
  unfold Item.ofRow?
  by_cases hcounts : counts (Text.trim row) = true
  · obtain ⟨hne, hhead⟩ := counts_iff.mp hcounts
    rw [if_neg (not_or.mpr ⟨hne, hhead⟩), if_pos hcounts, mark, isSeparator_of_ne_nil hne]
    split <;> rfl
  · have hnone : Text.trim row = [] ∨ (Text.trim row).head? = some '#' := by
      by_contra h
      exact hcounts (counts_iff.mpr (not_or.mp h))
    rw [if_neg hcounts]
    exact if_pos hnone

theorem filterMap_ofRow? (text : List Char) :
    (Text.rows text).filterMap Item.ofRow? = (contentLines text).map mark := by
  rw [← filter_counts_rows]
  induction Text.rows text with
  | nil => rfl
  | cons row rows ih =>
    by_cases hcounts : counts (Text.trim row) = true
    · have hrow : Item.ofRow? row = some (mark (Text.trim row)) := by rw [ofRow?_eq, if_pos hcounts]
      rw [List.filterMap_cons_some hrow, List.map_cons, List.filter_cons_of_pos hcounts, List.map_cons,
        ih]
    · have hrow : Item.ofRow? row = none := by rw [ofRow?_eq, if_neg hcounts]
      rw [List.filterMap_cons_none hrow, List.map_cons, List.filter_cons_of_neg hcounts, ih]

theorem countP_rows (text : List Char) :
    ((Text.rows text).countP fun row => Item.ofRow? row == some .boundary) =
      (contentLines text).countP isSeparator := by
  rw [← List.count_filterMap, filterMap_ofRow?, List.count, List.countP_map]
  refine List.countP_congr fun line _ => ?_
  simp [mark_eq_boundary_iff]

/-- Pieces with a boundary between neighbours are the whole again, with a boundary for each line that
was split at. -/
theorem intercalate_splitOnP (ls : List Line) :
    [Item.boundary].intercalate ((ls.splitOnP isSeparator).map fun piece => piece.map Item.content) =
      ls.map mark := by
  induction ls with
  | nil => rfl
  | cons line ls ih =>
    obtain ⟨first, others, hcut⟩ :=
      List.exists_cons_of_ne_nil (List.splitOnP_ne_nil isSeparator ls)
    rw [hcut] at ih
    rw [List.splitOnP_cons_eq_if_modifyHead, hcut, List.map_cons, mark, ← ih]
    -- The first piece ends before the line, or goes on with it.
    by_cases hsep : isSeparator line = true
    · rw [if_pos hsep, if_pos hsep]
      rfl
    · rw [if_neg hsep, if_neg hsep, List.modifyHead_cons]
      cases others with
      | nil => rfl
      | cons second others => rfl

theorem length_splitOnP (ls : List Line) :
    (ls.splitOnP isSeparator).length = ls.countP isSeparator + 1 := by
  induction ls with
  | nil => rfl
  | cons line ls ih =>
    rw [List.splitOnP_cons_eq_if_modifyHead, List.countP_cons]
    split <;> simp_all

theorem of_mem_contentLines {text : List Char} {line : Line} (h : line ∈ contentLines text) :
    Text.trim line = line ∧ line ≠ [] ∧ line.head? ≠ some '#' := by
  rw [contentLines_eq, List.mem_filter, List.mem_map] at h
  obtain ⟨⟨row, -, rfl⟩, hcounts⟩ := h
  exact ⟨Text.trim_trim row, counts_iff.mp hcounts⟩

/-- The sections of a text hold what its rows give, in their order and with a boundary between
neighbours. So there is one section more than rows of equals signs, and no line of a section has
blanks at its ends, is empty, is all comment or is a separator. -/
theorem intercalate_ofText (text : List Char) :
    [Item.boundary].intercalate ((ofText text).map fun ls => ls.map Item.content) =
        (Text.rows text).filterMap Item.ofRow? ∧
      (ofText text).length =
        ((Text.rows text).countP fun row => Item.ofRow? row == some .boundary) + 1 ∧
      ∀ ls ∈ ofText text, ∀ line ∈ ls,
        Text.trim line = line ∧ line ≠ [] ∧ line.head? ≠ some '#' ∧ ∃ c ∈ line, c ≠ '=' := by
  refine ⟨?_, ?_, fun ls hls line hline => ?_⟩
  · rw [filterMap_ofRow?, ofText, intercalate_splitOnP]
  · rw [countP_rows, ofText, length_splitOnP]
  · obtain ⟨hcontent, hsep⟩ := mem_of_mem_splitOnP hls hline
    obtain ⟨htrim, hne, hhead⟩ := of_mem_contentLines hcontent
    have hsome : ∃ c ∈ line, c ≠ '=' := by simpa [isSeparator_of_ne_nil hne] using hsep
    exact ⟨htrim, hne, hhead, hsome⟩

/-- A text that starts and ends with a separator and has two of them in a row, with both kinds of line
ends and a blank that is not in ASCII. -/
theorem intercalate_ofText_of_edges :
    let text := "==\r\n int32 x # a\u2003\r\n\r\n\t# b\n=\n === \r".toList
    let line := "int32 x # a".toList
    [line] ∈ ofText text ∧ line ∈ [line] ∧
      [Item.boundary].intercalate ((ofText text).map fun ls => ls.map Item.content) =
        (Text.rows text).filterMap Item.ofRow? ∧
      (ofText text).length =
        ((Text.rows text).countP fun row => Item.ofRow? row == some .boundary) + 1 ∧
      Text.trim line = line ∧ line ≠ [] ∧ line.head? ≠ some '#' ∧ ∃ c ∈ line, c ≠ '=' := by
  intro text line
  have hsections : ofText text = [[], [line], [], []] := by decide +kernel
  have hls : [line] ∈ ofText text := by simp [hsections]
  have hline : line ∈ [line] := List.mem_singleton.mpr rfl
  obtain ⟨hjoined, hcount, hlines⟩ := intercalate_ofText text
  exact ⟨hls, hline, hjoined, hcount, hlines [line] hls line hline⟩

end Section
end MessageSchema
