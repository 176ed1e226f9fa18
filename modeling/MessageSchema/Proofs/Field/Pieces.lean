import MessageSchema.Field.Declaration
import MessageSchema.Proofs.Text.Trimming
import Mathlib.Data.Option.Basic

/-!
The pieces of a declaration, put together and read again. A piece ends where the next one starts,
so the longest piece that the reader takes is the piece that was written.
-/
namespace MessageSchema
namespace Declaration

theorem takeWhile_append_stop {p : Char → Bool} {run rest : List Char} (hrun : ∀ c ∈ run, p c = true)
    (hstop : ∀ c ∈ rest.head?, p c = false) : (run ++ rest).takeWhile p = run := by
  rw [List.takeWhile_append_of_pos hrun]
  cases rest with
  | nil => simp
  | cons c rest => simp [hstop c (by simp)]

theorem dropWhile_append_stop {p : Char → Bool} {run rest : List Char} (hrun : ∀ c ∈ run, p c = true)
    (hstop : ∀ c ∈ rest.head?, p c = false) : (run ++ rest).dropWhile p = rest := by
  rw [List.dropWhile_append_of_pos hrun]
  cases rest with
  | nil => simp
  | cons c rest => simp [hstop c (by simp)]

/-- Of two runs that end where they have to, neither is longer than the other. -/
theorem run_unique {p : Char → Bool} {run run' rest rest' : List Char}
    (hrun : ∀ c ∈ run, p c = true) (hstop : ∀ c ∈ rest.head?, p c = false)
    (hrun' : ∀ c ∈ run', p c = true) (hstop' : ∀ c ∈ rest'.head?, p c = false)
    (h : run ++ rest = run' ++ rest') : run = run' ∧ rest = rest' := by
  constructor
  · rw [← takeWhile_append_stop hrun hstop, h, takeWhile_append_stop hrun' hstop']
  · rw [← dropWhile_append_stop hrun hstop, h, dropWhile_append_stop hrun' hstop']

/-! Brackets -/

theorem readShape_of_not_bracket {cs : List Char} (h : cs.head? ≠ some '[') :
    readShape cs = some (.single, cs) := by
  unfold readShape
  split
  · simp at h
  · rfl

theorem readShape_digits {digits : List Char} (h : ∀ c ∈ digits, c.isDigit = true)
    (rest : List Char) :
    readShape ('[' :: (digits ++ ']' :: rest)) =
      (shapeOfDigits digits).map fun shape => (shape, rest) := by
  have hstop : ∀ c ∈ (']' :: rest).head?, c.isDigit = false := by simp
  simp only [readShape, takeWhile_append_stop h hstop, dropWhile_append_stop h hstop]

theorem readShape_unbounded (rest : List Char) :
    readShape ('[' :: ']' :: rest) = some (.unbounded, rest) :=
  readShape_digits (fun _ hc => absurd hc List.not_mem_nil) rest

theorem readShape_fixed (length : UInt64) (rest : List Char) :
    readShape ('[' :: (Decimal.ofNat length.toNat ++ ']' :: rest)) = some (.fixed length, rest) := by
  rw [readShape_digits fun c hc => Decimal.isDigit_of_mem_ofNat hc]
  have hsize : length.toNat < UInt64.size := length.toNat_lt
  simp [shapeOfDigits, Decimal.ofNat_ne_nil, hsize]

/-! Whole declarations -/

theorem readValue_equals {blanks : List Char} (h : ∀ c ∈ blanks, Text.isBlank c = true)
    (value : List Char) : readValue (blanks ++ '=' :: value) = some (some value) := by
  have hstop : ∀ c ∈ ('=' :: value).head?, Text.isBlank c = false := by
    intro c hc
    obtain rfl : '=' = c := by simpa using hc
    decide
  simp only [readValue, Text.trimStart, dropWhile_append_stop h hstop]

/-- The pieces of a line are those that it is put together from. -/
theorem read?_append {typeName shaped name : List Char} (blanks tail : List Char) {shape : Shape}
    {value : Option (List Char)}
    (htype : typeName ≠ []) (htypeChars : ∀ c ∈ typeName, isTypeChar c = true)
    (hshaped : ∀ c ∈ shaped.head?, isTypeChar c = false)
    (hshape : readShape shaped = some (shape, blanks ++ (name ++ tail)))
    (hblanks : blanks ≠ []) (hblank : ∀ c ∈ blanks, Text.isBlank c = true)
    (hname : name ≠ []) (hnameChars : ∀ c ∈ name, isNameChar c = true)
    (htail : ∀ c ∈ tail.head?, isNameChar c = false) (hvalue : readValue tail = some value) :
    read? (typeName ++ shaped) = some { typeName, shape, name, value } := by
  have hnameStart : ∀ c ∈ (name ++ tail).head?, Text.isBlank c = false := by
    intro c hc
    obtain ⟨first, others, rfl⟩ := List.exists_cons_of_ne_nil hname
    obtain rfl : first = c := by simpa using hc
    have hfirst := hnameChars first List.mem_cons_self
    rw [isNameChar, Bool.and_eq_true] at hfirst
    simpa using hfirst.1
  -- The reader stops at the end of each run: behind the type at a bracket or a blank, behind the
  -- blanks at the name, and behind the name at a blank or an equals sign.
  simp only [read?, takeWhile_append_stop htypeChars hshaped,
    dropWhile_append_stop htypeChars hshaped, hshape, Option.bind_eq_bind, Option.bind_some,
    takeWhile_append_stop hblank hnameStart, dropWhile_append_stop hblank hnameStart,
    takeWhile_append_stop hnameChars htail, dropWhile_append_stop hnameChars htail, hvalue]
  rw [guard, if_pos ⟨htype, hblanks, hname⟩]
  rfl

end Declaration
end MessageSchema
