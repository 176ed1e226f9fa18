import MessageSchema.Text.Line
import Mathlib.Data.List.DropRight

/-!
What trimming does to a text. It takes a run of blanks off each end and nothing else, so what
stands between two characters that are not blank stays.
-/
namespace MessageSchema
namespace Text

theorem mem_of_mem_trimStart {c : Char} {cs : List Char} (h : c ∈ trimStart cs) : c ∈ cs :=
  List.dropWhile_subset _ h

theorem mem_of_mem_trimEnd {c : Char} {cs : List Char} (h : c ∈ trimEnd cs) : c ∈ cs := by
  have hrev : c ∈ trimStart cs.reverse := List.mem_reverse.mp h
  exact List.mem_reverse.mp (mem_of_mem_trimStart hrev)

theorem mem_of_mem_trim {c : Char} {cs : List Char} (h : c ∈ trim cs) : c ∈ cs :=
  mem_of_mem_trimStart (mem_of_mem_trimEnd h)

theorem trimStart_trimStart (cs : List Char) : trimStart (trimStart cs) = trimStart cs :=
  List.dropWhile_idempotent ..

theorem trimEnd_trimEnd (cs : List Char) : trimEnd (trimEnd cs) = trimEnd cs := by
  simp [trimEnd, trimStart_trimStart]

theorem trimEnd_append_cons {c : Char} (h : isBlank c = false) (before after : List Char) :
    trimEnd (before ++ c :: after) = before ++ c :: trimEnd after := by
  have hstart (cs rest : List Char) : trimStart (cs ++ c :: rest) = trimStart cs ++ c :: rest := by
    induction cs with
    | nil => exact trimStart_cons_of_not_blank h rest
    | cons a as ih =>
      by_cases ha : isBlank a = true
      · rw [List.cons_append, trimStart_cons_of_blank ha, trimStart_cons_of_blank ha, ih]
      · rw [Bool.not_eq_true] at ha
        rw [List.cons_append, trimStart_cons_of_not_blank ha, trimStart_cons_of_not_blank ha]
        rfl
  simp [trimEnd, hstart]

theorem trimEnd_cons {c : Char} (h : isBlank c = false) (cs : List Char) :
    trimEnd (c :: cs) = c :: trimEnd cs := trimEnd_append_cons h [] cs

theorem trimEnd_append_of_solid {cs : List Char} (hne : cs ≠ []) (h : ∀ c ∈ cs, isBlank c = false)
    (before : List Char) : trimEnd (before ++ cs) = before ++ cs := by
  obtain ⟨init, last, rfl⟩ := List.eq_nil_or_concat' cs |>.resolve_left hne
  have hlast : isBlank last = false := h last (by simp)
  rw [← List.append_assoc]
  exact trimEnd_append_of_not_blank hlast _

theorem trim_cons {c : Char} (h : isBlank c = false) (cs : List Char) :
    trim (c :: cs) = c :: trimEnd cs := by
  rw [trim, trimStart_cons_of_not_blank h, trimEnd_cons h]

theorem trim_cons_of_blank {c : Char} (h : isBlank c = true) (cs : List Char) :
    trim (c :: cs) = trim cs := by
  rw [trim, trimStart_cons_of_blank h, trim]

theorem trim_append_of_blank {c : Char} (h : isBlank c = true) (cs : List Char) :
    trim (cs ++ [c]) = trim cs := by
  induction cs with
  | nil => rw [List.nil_append, trim_cons_of_blank h]
  | cons a as ih =>
    by_cases ha : isBlank a = true
    · rw [List.cons_append, trim_cons_of_blank ha, trim_cons_of_blank ha, ih]
    · rw [Bool.not_eq_true] at ha
      rw [List.cons_append, trim_cons ha, trim_cons ha, trimEnd_append_blank h]

theorem trim_trim (cs : List Char) : trim (trim cs) = trim cs := by
  induction cs with
  | nil => rfl
  | cons c cs ih =>
    by_cases hc : isBlank c = true
    · rwa [trim_cons_of_blank hc]
    · rw [Bool.not_eq_true] at hc
      rw [trim_cons hc, trim_cons hc, trimEnd_trimEnd]

theorem exists_eq_trimEnd_append (cs : List Char) :
    ∃ after, cs = trimEnd cs ++ after ∧ ∀ c ∈ after, isBlank c = true := by
  refine ⟨(cs.reverse.takeWhile isBlank).reverse, ?_, ?_⟩
  · rw [trimEnd, ← List.reverse_append]
    unfold trimStart
    rw [List.takeWhile_append_dropWhile, List.reverse_reverse]
  · exact fun c hc => List.mem_takeWhile_imp (List.mem_reverse.mp hc)

/-- A text is what trimming leaves of it, between two runs of blanks. -/
theorem exists_eq_append_trim_append (cs : List Char) :
    ∃ before after, cs = before ++ trim cs ++ after ∧
      (∀ c ∈ before, isBlank c = true) ∧ ∀ c ∈ after, isBlank c = true := by
  obtain ⟨after, hend, hafter⟩ := exists_eq_trimEnd_append (trimStart cs)
  refine ⟨cs.takeWhile isBlank, after, ?_, ?_, hafter⟩
  · calc cs = cs.takeWhile isBlank ++ trimStart cs := List.takeWhile_append_dropWhile.symm
      _ = cs.takeWhile isBlank ++ (trim cs ++ after) := congrArg _ hend
      _ = cs.takeWhile isBlank ++ trim cs ++ after := (List.append_assoc ..).symm
  · exact fun c hc => List.mem_takeWhile_imp hc

theorem trim_append_of_blanks {after : List Char} (h : ∀ c ∈ after, isBlank c = true)
    (cs : List Char) : trim (cs ++ after) = trim cs := by
  induction after generalizing cs with
  | nil => rw [List.append_nil]
  | cons c after ih =>
    have hrest : ∀ a ∈ after, isBlank a = true := fun a ha => h a (List.mem_cons_of_mem c ha)
    rw [List.append_cons, ih hrest, trim_append_of_blank (h c List.mem_cons_self)]

theorem trim_trimEnd (cs : List Char) : trim (trimEnd cs) = trim cs := by
  obtain ⟨after, heq, hafter⟩ := exists_eq_trimEnd_append cs
  rw [← trim_append_of_blanks hafter, ← heq]

theorem trim_eq_self_of_solid {cs : List Char} (h : ∀ c ∈ cs, isBlank c = false) :
    trim cs = cs := by
  cases cs with
  | nil => rfl
  | cons c cs =>
    have hend := trimEnd_append_of_solid (List.cons_ne_nil c cs) h []
    rwa [trim, trimStart_cons_of_not_blank (h c List.mem_cons_self)]

theorem isBlank_head_of_trim {c : Char} {cs : List Char} (h : trim (c :: cs) = c :: cs) :
    isBlank c = false := by
  by_contra hc
  rw [Bool.not_eq_false] at hc
  have hlen : (trim cs).length ≤ cs.length := by
    obtain ⟨before, after, heq, -, -⟩ := exists_eq_append_trim_append cs
    have hsum := congrArg List.length heq
    simp only [List.length_append] at hsum
    omega
  rw [trim_cons_of_blank hc] at h
  rw [h, List.length_cons] at hlen
  omega

end Text
end MessageSchema
