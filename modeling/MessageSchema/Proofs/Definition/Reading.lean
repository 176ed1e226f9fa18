import MessageSchema.Definition.Reader
import MessageSchema.Proofs.Bundle.Sections
import MessageSchema.Proofs.Attempts
import Mathlib.Data.List.Infix

/-!
Reading a definition line by line: what is a header, what a line of fields adds, and why the lines
of a section are clean already.
-/
namespace MessageSchema
namespace Definition

theorem headerName?_eq_none_iff {line : Line} :
    headerName? line = none ↔ ¬ headerMark <+: line := by
  rw [headerName?, Option.map_eq_none_iff, Option.eq_none_iff_forall_ne_some]
  constructor
  · rintro h ⟨rest, hrest⟩
    exact h rest (List.isPrefixOf?_eq_some_iff_append_eq.mpr hrest)
  · intro h rest hrest
    exact h ⟨rest, List.isPrefixOf?_eq_some_iff_append_eq.mp hrest⟩

theorem headerName?_append (rest : List Char) :
    headerName? (headerMark ++ rest) = some (Text.trim rest) := by
  rw [headerName?, List.isPrefixOf?_eq_some_iff_append_eq.mpr rfl, Option.map_some]

/-- The header mark cannot reach over a character that it does not hold. -/
theorem not_header_append {before : List Char} {c : Char} (h : ¬ headerMark <+: before)
    (hc : c ∉ headerMark) (after : List Char) : ¬ headerMark <+: before ++ c :: after := by
  intro hmark
  rcases Nat.lt_or_ge before.length headerMark.length with hlt | hge
  · have hword : before ++ [c] <+: before ++ c :: after := ⟨after, by simp⟩
    have hlen : (before ++ [c]).length ≤ headerMark.length := by
      rw [List.length_append]
      exact hlt
    have hinside : before ++ [c] <+: headerMark :=
      List.prefix_of_prefix_length_le hword hmark hlen
    exact hc (hinside.subset (by simp))
  · exact h (List.prefix_of_prefix_length_le hmark (List.prefix_append ..) hge)

theorem cleanLines_trim {ls : List Line} (h : ∀ l ∈ ls, Section.IsEntry l) :
    cleanLines (ls.map Text.trim) = ls.map Text.trim := by
  have hclean : (ls.map Text.trim).map Text.clean = ls.map Text.trim := by
    rw [List.map_map]
    exact List.map_congr_left fun l hl => (h l hl).clean_trim
  rw [cleanLines, hclean, List.filter_eq_self]
  intro l hl
  obtain ⟨line, hline, rfl⟩ := List.mem_map.mp hl
  simpa using (h line hline).trim_ne_nil

theorem ofLines_trim {ls : List Line} (h : ∀ l ∈ ls, Section.IsEntry l) :
    ofLines (ls.map Text.trim) = (ls.map Text.trim).foldlM putLine { name := none, fields := [] } := by
  rw [ofLines, cleanLines_trim h]

theorem putLine_of_field {line : Line} {f : Field} (hheader : headerName? line = none)
    (hfield : Field.ofLine line = .ok f) (d : Definition) :
    d.putLine line = .ok { d with fields := d.fields ++ [f] } := by
  rw [putLine, hheader, hfield]
  rfl

theorem foldlM_putLine_map {α : Type} (line : α → Line) (field : α → Field) (as : List α)
    (hheader : ∀ a ∈ as, headerName? (line a) = none)
    (hfield : ∀ a ∈ as, Field.ofLine (line a) = .ok (field a)) (d : Definition) :
    (as.map line).foldlM putLine d = .ok { d with fields := d.fields ++ as.map field } := by
  induction as generalizing d with
  | nil =>
    rw [List.map_nil, List.map_nil, List.append_nil]
    rfl
  | cons a as ih =>
    have hfirst := putLine_of_field (hheader a List.mem_cons_self) (hfield a List.mem_cons_self) d
    have hrest := ih (fun a ha => hheader a (List.mem_cons_of_mem _ ha))
      (fun a ha => hfield a (List.mem_cons_of_mem _ ha)) { d with fields := d.fields ++ [field a] }
    rw [List.map_cons, List.foldlM_cons, hfirst, Attempts.ok_bind, hrest, List.map_cons,
      List.append_assoc, List.singleton_append]

theorem putLine_header {rest : List Char} (hne : Text.trim rest ≠ []) (fields : List Field) :
    putLine { name := none, fields } (headerMark ++ rest) =
      .ok { name := some (String.ofList (Text.trim rest)), fields } := by
  simp [putLine, headerName?_append, putName, hne]

end Definition
end MessageSchema
