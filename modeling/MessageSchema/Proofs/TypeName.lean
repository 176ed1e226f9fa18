import MessageSchema.TypeName
import Mathlib.Data.List.TakeWhile

/-!
Type names that keep their spelling, full names among them, and the package of a full name.
-/
namespace MessageSchema
namespace TypeName

variable {name : String}

theorem normalize_of_ne (hc : name ≠ "char") (hb : name ≠ "byte") : normalize name = name := by
  simp [normalize, aliases, List.lookup_cons, beq_false_of_ne hc, beq_false_of_ne hb]

theorem normalize_eq_self_iff : normalize name = name ↔ name ≠ "char" ∧ name ≠ "byte" := by
  constructor
  · intro h
    constructor
    · rintro rfl
      exact absurd h (by decide)
    · rintro rfl
      exact absurd h (by decide)
  · exact fun ⟨hc, hb⟩ => normalize_of_ne hc hb

theorem normalize_normalize (name : String) : normalize (normalize name) = normalize name := by
  by_cases hc : name = "char"
  · subst hc
    decide
  by_cases hb : name = "byte"
  · subst hb
    decide
  rw [normalize_of_ne hc hb, normalize_of_ne hc hb]

theorem isBuiltin_of_isQualified (h : isQualified name = true) : isBuiltin name = false := by
  have hbuiltin : ∀ t ∈ builtin, isQualified t = false := by decide
  cases hname : isBuiltin name with
  | false => rfl
  | true =>
    have hmem : name ∈ builtin := List.contains_iff_mem.mp hname
    simp [hbuiltin name hmem] at h

theorem normalize_of_isQualified (h : isQualified name = true) : normalize name = name := by
  apply normalize_of_ne
  · rintro rfl
    exact absurd h (by decide)
  · rintro rfl
    exact absurd h (by decide)

theorem ne_empty_of_isQualified (h : isQualified name = true) : name ≠ "" := by
  rintro rfl
  exact absurd h (by decide)

/-! Packages -/

theorem beforeLastSlash_append {short : List Char} (h : '/' ∉ short) (package : List Char) :
    beforeLastSlash (package ++ '/' :: short) = package := by
  have hskip : ∀ c ∈ short.reverse, (!decide (c = '/')) = true := by
    intro c hc
    have hne : c ≠ '/' := fun heq => h (heq ▸ List.mem_reverse.mp hc)
    simp [hne]
  simp [beforeLastSlash, List.dropWhile_append_of_pos hskip]

theorem beforeLastSlash_of_not_mem {cs : List Char} (h : '/' ∉ cs) : beforeLastSlash cs = [] := by
  have hdrop : cs.reverse.dropWhile (fun c => !decide (c = '/')) = [] := by
    rw [List.dropWhile_eq_nil_iff]
    intro c hc
    have hne : c ≠ '/' := fun heq => h (heq ▸ List.mem_reverse.mp hc)
    simp [hne]
  simp [beforeLastSlash, hdrop]

theorem exists_last_slash {cs : List Char} (h : '/' ∈ cs) :
    ∃ package short, cs = package ++ '/' :: short ∧ '/' ∉ short := by
  obtain ⟨short, package, hcut, hshort⟩ := List.eq_append_cons_of_mem (List.mem_reverse.mpr h)
  refine ⟨package.reverse, short.reverse, ?_, by simpa using hshort⟩
  simpa using congrArg List.reverse hcut

theorem short_unique {package package' short short' : String} (h : '/' ∉ short.toList)
    (h' : '/' ∉ short'.toList) (heq : package ++ "/" ++ short = package' ++ "/" ++ short') :
    short = short' := by
  have hchars :
      package.toList ++ '/' :: short.toList = package'.toList ++ '/' :: short'.toList := by
    simpa using congrArg String.toList heq
  have hpackage : package.toList = package'.toList := by
    rw [← beforeLastSlash_append h package.toList, hchars, beforeLastSlash_append h']
  rw [hpackage] at hchars
  exact String.toList_inj.mp (List.cons.inj (List.append_cancel_left hchars)).2

theorem package?_eq_some_iff_beforeLastSlash {package : String} :
    package? name = some package ↔ beforeLastSlash name.toList = package.toList ∧ package ≠ "" := by
  rw [package?]
  cases hcut : beforeLastSlash name.toList with
  | nil =>
    constructor
    · rintro ⟨⟩
    · rintro ⟨hempty, hne⟩
      exact absurd (String.toList_inj.mp hempty.symm) hne
  | cons c cs =>
    simp only [Option.some.injEq, ← String.toList_inj, String.toList_ofList]
    constructor
    · intro h
      refine ⟨h, ?_⟩
      rintro rfl
      cases h
    · exact fun h => h.1

theorem package?_eq_some_iff {package : String} : package? name = some package ↔
    package ≠ "" ∧ ∃ short : String, '/' ∉ short.toList ∧ name = package ++ "/" ++ short := by
  rw [package?_eq_some_iff_beforeLastSlash]
  constructor
  · rintro ⟨hcut, hne⟩
    have hslash : '/' ∈ name.toList := by
      by_contra hnot
      rw [beforeLastSlash_of_not_mem hnot] at hcut
      exact hne (String.toList_inj.mp hcut.symm)
    obtain ⟨before, short, heq, hshort⟩ := exists_last_slash hslash
    rw [heq, beforeLastSlash_append hshort] at hcut
    refine ⟨hne, String.ofList short, by simpa using hshort, ?_⟩
    rw [← String.toList_inj, heq, hcut]
    simp
  · rintro ⟨hne, short, hshort, rfl⟩
    refine ⟨?_, hne⟩
    simpa using beforeLastSlash_append hshort package.toList

end TypeName
end MessageSchema
