import MessageSchema.Text.Quoted
import Mathlib.Data.List.Basic

/-!
Quoted text is read from left to right in one way. What stands for a character shows where it ends, a
quote that is not escaped ends the text, and no control character is written as it is.
-/
namespace MessageSchema
namespace Text

theorem escape_cases (c : Char) :
    (∃ letter, (c, letter) ∈ escapeLetters ∧ escape c = ['\\', letter]) ∨
      (c.toNat < 0x20 ∧ escape c = '\\' :: 'u' :: codeDigits c.toNat) ∨
      (0x20 ≤ c.toNat ∧ c ≠ '"' ∧ c ≠ '\\' ∧ escape c = [c]) := by
  unfold escape
  cases hletter : escapeLetters.lookup c with
  | some letter =>
    obtain ⟨before, after, hsplit, -⟩ := List.lookup_eq_some_iff.mp hletter
    exact .inl ⟨letter, by simp [hsplit], rfl⟩
  | none =>
    have hother : ∀ p ∈ escapeLetters, c ≠ p.1 := by
      simpa using List.lookup_eq_none_iff.mp hletter
    by_cases hcontrol : c.toNat < 0x20
    · exact .inr (.inl ⟨hcontrol, if_pos hcontrol⟩)
    · exact .inr (.inr ⟨by omega, hother ('"', '"') (by decide), hother ('\\', '\\') (by decide),
        if_neg hcontrol⟩)

/-- A control character without a letter of its own is written by its code. -/
example : escape '\x1b' = ['\\', 'u', '0', '0', '1', 'b'] := by decide

def digitValue (digit : Char) : Nat := (List.range 16).findIdx fun n => Nat.digitChar n == digit

theorem digitValue_digitChar : ∀ n < 16, digitValue (Nat.digitChar n) = n := by decide

/-- The character that a quoted text begins with, and the text behind it. -/
def unescape? : List Char → Option (Char × List Char)
  | '\\' :: 'u' :: _ :: _ :: high :: low :: rest =>
    some (Char.ofNat (16 * digitValue high + digitValue low), rest)
  | '\\' :: letter :: rest => (escapeLetters.find? fun p => p.2 == letter).map fun p => (p.1, rest)
  | c :: rest => some (c, rest)
  | [] => none

theorem unescape?_letter (rest : List Char) :
    ∀ p ∈ escapeLetters, unescape? ('\\' :: p.2 :: rest) = some (p.1, rest) := by
  simp only [escapeLetters, List.forall_mem_cons]
  exact ⟨rfl, rfl, rfl, rfl, rfl, rfl, rfl, by simp⟩

theorem unescape?_code {n : Nat} (hn : n < 0x20) (rest : List Char) :
    unescape? ('\\' :: 'u' :: codeDigits n ++ rest) = some (Char.ofNat n, rest) := by
  have hdigits : 16 * digitValue (Nat.digitChar (n / 16)) + digitValue (Nat.digitChar (n % 16)) = n := by
    rw [digitValue_digitChar _ (by omega), digitValue_digitChar _ (by omega)]
    omega
  simp only [codeDigits, List.cons_append, List.nil_append, unescape?, hdigits]

theorem unescape?_raw {c : Char} (hc : c ≠ '\\') (rest : List Char) :
    unescape? (c :: rest) = some (c, rest) := by
  unfold unescape?
  split <;> simp_all

/-- What stands for a character gives the character back, whatever comes behind it. -/
theorem unescape?_escape (c : Char) (rest : List Char) :
    unescape? (escape c ++ rest) = some (c, rest) := by
  rcases escape_cases c with ⟨letter, hletter, hc⟩ | ⟨hcode, hc⟩ | ⟨-, -, hraw, hc⟩
  · rw [hc]
    exact unescape?_letter rest _ hletter
  · rw [hc, unescape?_code hcode, Char.ofNat_toNat]
  · rw [hc]
    exact unescape?_raw hraw rest

theorem escape_append_inj {c c' : Char} {rest rest' : List Char}
    (h : escape c ++ rest = escape c' ++ rest') : c = c' ∧ rest = rest' := by
  have hread := congrArg unescape? h
  rw [unescape?_escape, unescape?_escape] at hread
  exact Prod.mk.inj (Option.some.inj hread)

theorem quote_ne_escape_append (c : Char) (rest rest' : List Char) :
    '"' :: rest ≠ escape c ++ rest' := by
  rcases escape_cases c with ⟨letter, -, hc⟩ | ⟨-, hc⟩ | ⟨-, hquote, -, hc⟩ <;> rw [hc]
  · simp
  · simp
  · exact fun h => hquote (List.cons.inj h).1.symm

theorem quoted_append_inj {cs cs' rest rest' : List Char}
    (h : quoted cs ++ rest = quoted cs' ++ rest') : cs = cs' ∧ rest = rest' := by
  simp only [quoted, List.cons_append, List.append_assoc, List.nil_append, List.cons.injEq,
    true_and] at h
  -- From character to character; the closing quote ends both texts at once.
  induction cs generalizing cs' with
  | nil =>
    cases cs' with
    | nil => simpa using h
    | cons c' cs' =>
      rw [List.flatMap_cons, List.append_assoc] at h
      exact absurd h (quote_ne_escape_append c' rest _)
  | cons c cs ih =>
    cases cs' with
    | nil =>
      rw [List.flatMap_cons, List.append_assoc] at h
      exact absurd h.symm (quote_ne_escape_append c rest' _)
    | cons c' cs' =>
      rw [List.flatMap_cons, List.flatMap_cons, List.append_assoc, List.append_assoc] at h
      obtain ⟨rfl, hmore⟩ := escape_append_inj h
      obtain ⟨rfl, hrest⟩ := ih hmore
      exact ⟨rfl, hrest⟩

def isPrintable (cs : List Char) : Bool := cs.all fun c => 0x20 ≤ c.toNat

theorem isPrintable_iff {cs : List Char} : isPrintable cs = true ↔ ∀ c ∈ cs, 0x20 ≤ c.toNat := by
  simp [isPrintable]

theorem isPrintable_append {cs cs' : List Char} :
    isPrintable (cs ++ cs') = (isPrintable cs && isPrintable cs') := List.all_append

theorem isPrintable_cons {c : Char} {cs : List Char} :
    isPrintable (c :: cs) = (decide (0x20 ≤ c.toNat) && isPrintable cs) := List.all_cons

theorem isPrintable_codeDigits : ∀ n < 0x20, isPrintable (codeDigits n) = true := by decide

theorem isPrintable_letters : escapeLetters.all (fun p => isPrintable ['\\', p.2]) = true := by decide

theorem isPrintable_escape (c : Char) : isPrintable (escape c) = true := by
  rcases escape_cases c with ⟨letter, hletter, hc⟩ | ⟨hcode, hc⟩ | ⟨hraw, -, -, hc⟩ <;> rw [hc]
  · exact List.all_eq_true.mp isPrintable_letters _ hletter
  · rw [isPrintable_cons, isPrintable_cons, isPrintable_codeDigits _ hcode]
    rfl
  · simpa [isPrintable] using hraw

theorem isPrintable_quoted (cs : List Char) : isPrintable (quoted cs) = true := by
  have hbody : isPrintable (cs.flatMap escape) = true := by
    induction cs with
    | nil => rfl
    | cons c cs ih =>
      rw [List.flatMap_cons, isPrintable_append, isPrintable_escape, ih]
      rfl
  rw [quoted, List.cons_append, isPrintable_cons, isPrintable_append, hbody]
  rfl

end Text
end MessageSchema
