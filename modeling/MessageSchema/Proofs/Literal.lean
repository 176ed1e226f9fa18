import MessageSchema.Literal
import MessageSchema.Proofs.Field.Pieces
import MessageSchema.Proofs.Text.Quoting

/-!
The texts of literals. A text without floats is read from left to right in one way: its first character
tells the kind of the literal, and a number ends before a character that is no digit. So literals
with the same text are the same.
-/
namespace MessageSchema

namespace Decimal

def isLead (c : Char) : Bool := c == '-' || c.isDigit

theorem exists_ofInt_eq_cons (n : Int) : ∃ c cs, ofInt n = c :: cs ∧ isLead c = true := by
  cases n with
  | ofNat n =>
    obtain ⟨c, cs, hcut⟩ := List.exists_cons_of_ne_nil (ofNat_ne_nil n)
    have hdigit : c.isDigit = true := isDigit_of_mem_ofNat (hcut ▸ List.mem_cons_self)
    exact ⟨c, cs, hcut, by simp [isLead, hdigit]⟩
  | negSucc n => exact ⟨'-', ofNat (n + 1), rfl, rfl⟩

theorem ofNat_append_inj {m n : Nat} {rest rest' : List Char}
    (hrest : ∀ c ∈ rest.head?, c.isDigit = false) (hrest' : ∀ c ∈ rest'.head?, c.isDigit = false)
    (h : ofNat m ++ rest = ofNat n ++ rest') : m = n ∧ rest = rest' := by
  obtain ⟨hdigits, htail⟩ := Declaration.run_unique (fun _ hc => isDigit_of_mem_ofNat hc) hrest
    (fun _ hc => isDigit_of_mem_ofNat hc) hrest' h
  exact ⟨ofNat_inj hdigits, htail⟩

theorem head?_ofNat_append_ne (n : Nat) (rest : List Char) :
    (ofNat n ++ rest).head? ≠ some '-' := by
  obtain ⟨c, cs, hcut⟩ := List.exists_cons_of_ne_nil (ofNat_ne_nil n)
  have hdigit : c.isDigit = true := isDigit_of_mem_ofNat (hcut ▸ List.mem_cons_self)
  rw [hcut]
  rintro ⟨⟩
  exact absurd hdigit (by decide)

theorem ofInt_append_inj {m n : Int} {rest rest' : List Char}
    (hrest : ∀ c ∈ rest.head?, c.isDigit = false) (hrest' : ∀ c ∈ rest'.head?, c.isDigit = false)
    (h : ofInt m ++ rest = ofInt n ++ rest') : m = n ∧ rest = rest' := by
  cases m with
  | ofNat m =>
    cases n with
    | ofNat n =>
      obtain ⟨rfl, htail⟩ := ofNat_append_inj hrest hrest' h
      exact ⟨rfl, htail⟩
    | negSucc n => exact absurd (congrArg List.head? h) (head?_ofNat_append_ne m rest)
  | negSucc m =>
    cases n with
    | ofNat n => exact absurd (congrArg List.head? h).symm (head?_ofNat_append_ne n rest')
    | negSucc n =>
      obtain ⟨hsucc, htail⟩ := ofNat_append_inj hrest hrest' (List.cons.inj h).2
      exact ⟨congrArg Int.negSucc (Nat.succ.inj hsucc), htail⟩

theorem isPrintable_ofNat (n : Nat) : Text.isPrintable (ofNat n) = true := by
  refine Text.isPrintable_iff.mpr fun c hc => ?_
  have hdigit : '0'.toNat ≤ c.toNat := (Char.isDigit_iff_toNat.mp (isDigit_of_mem_ofNat hc)).1
  exact le_trans (by decide) hdigit

theorem isPrintable_ofInt (n : Int) : Text.isPrintable (ofInt n) = true := by
  cases n with
  | ofNat n => exact isPrintable_ofNat n
  | negSucc n =>
    rw [ofInt, Text.isPrintable_cons, isPrintable_ofNat]
    rfl

end Decimal

namespace Literal

/-- There is no float in the literal, however deep its lists are. -/
inductive IsFloatFree : Literal → Prop
  | bool (value : Bool) : IsFloatFree (.bool value)
  | int (value : Int64) : IsFloatFree (.int value)
  | string (value : String) : IsFloatFree (.string value)
  | list {items : List Literal} : (∀ item ∈ items, IsFloatFree item) → IsFloatFree (.list items)

variable {a b : Literal} {items items' : List Literal} {rest rest' : List Char}

/-! Equality -/

theorem same_list_iff (h : ∀ item ∈ items, ∀ b, same item b = true ↔ item = b) :
    sameItems items items' = true ↔ items = items' := by
  induction items generalizing items' with
  | nil => cases items' <;> simp [sameItems]
  | cons item items ih =>
    cases items' with
    | nil => simp [sameItems]
    | cons item' items' =>
      rw [List.forall_mem_cons] at h
      rw [sameItems, Bool.and_eq_true, h.1, ih h.2, List.cons.injEq]

theorem IsFloatFree.same_iff (ha : a.IsFloatFree) (b : Literal) : same a b = true ↔ a = b := by
  induction ha generalizing b with
  | bool value => cases b <;> simp [same]
  | int value => cases b <;> simp [same]
  | string value => cases b <;> simp [same]
  | list _ ih =>
    cases b with
    | list items' => rw [same, same_list_iff ih, list.injEq]
    | _ => simp [same]

/-! The text of a list -/

/-- What stands behind an item in the text of a list: the later items, each behind a comma, and the
closing bracket. -/
def remainder : List Literal → List Char
  | [] => [']']
  | item :: items => ',' :: ' ' :: (item.text ++ remainder items)

theorem text_list_nil : text (.list []) = ['[', ']'] := by simp [text, itemTexts]

theorem text_list_cons (item : Literal) (items : List Literal) :
    text (.list (item :: items)) = '[' :: (item.text ++ remainder items) := by
  rw [text, itemTexts_eq_map, List.cons_append]
  congr 1
  induction items generalizing item with
  | nil => simp [remainder]
  | cons next items ih =>
    have hnext := ih next
    rw [List.map_cons] at hnext ⊢
    rw [List.map_cons, List.intercalate_cons_cons, remainder, ← hnext]
    simp

theorem isDigit_head?_remainder (items : List Literal) (rest : List Char) :
    ∀ c ∈ (remainder items ++ rest).head?, c.isDigit = false := by
  intro c hc
  cases items with
  | nil =>
    obtain rfl : ']' = c := by simpa [remainder] using hc
    decide
  | cons item items =>
    obtain rfl : ',' = c := by simpa [remainder] using hc
    decide

/-! The kind of a literal -/

inductive Kind where
  | bool
  | int
  | float
  | string
  | list

def kind : Literal → Kind
  | .bool _ => .bool
  | .int _ => .int
  | .float _ => .float
  | .string _ => .string
  | .list _ => .list

/-- The kind of the literals without floats whose text begins with the character. -/
def Kind.ofLead (c : Char) : Kind :=
  if Decimal.isLead c then .int else if c = '"' then .string else if c = '[' then .list else .bool

theorem IsFloatFree.exists_text_eq_cons (ha : a.IsFloatFree) :
    ∃ c cs, a.text = c :: cs ∧ Kind.ofLead c = a.kind ∧ c ≠ ']' := by
  cases ha with
  | bool value =>
    cases value with
    | true => exact ⟨'t', _, rfl, rfl, by decide⟩
    | false => exact ⟨'f', _, rfl, rfl, by decide⟩
  | int value =>
    obtain ⟨c, cs, htext, hlead⟩ := Decimal.exists_ofInt_eq_cons value.toInt
    refine ⟨c, cs, htext, if_pos hlead, ?_⟩
    rintro rfl
    exact absurd hlead (by decide)
  | string value => exact ⟨'"', _, rfl, rfl, by decide⟩
  | list _ => exact ⟨'[', _, rfl, rfl, by decide⟩

theorem IsFloatFree.kind_eq (ha : a.IsFloatFree) (hb : b.IsFloatFree)
    (h : a.text ++ rest = b.text ++ rest') : a.kind = b.kind := by
  obtain ⟨c, cs, hc, hkind, -⟩ := ha.exists_text_eq_cons
  obtain ⟨c', cs', hc', hkind', -⟩ := hb.exists_text_eq_cons
  rw [hc, hc'] at h
  obtain rfl : c = c' := (List.cons.inj h).1
  rw [← hkind, ← hkind']

/-! Where the text of a literal ends -/

/-- In front of a character that is no digit, the text of the literal shows the literal and its own
end: no other text without floats, with whatever behind it, reads the same. -/
def IsDelimited (a : Literal) : Prop :=
  ∀ b rest rest', b.IsFloatFree → (∀ c ∈ rest.head?, c.isDigit = false) →
    (∀ c ∈ rest'.head?, c.isDigit = false) → a.text ++ rest = b.text ++ rest' → a = b ∧ rest = rest'

theorem remainder_append_inj (hitems : ∀ item ∈ items, item.IsDelimited)
    (hfree : ∀ item ∈ items', item.IsFloatFree)
    (h : remainder items ++ rest = remainder items' ++ rest') : items = items' ∧ rest = rest' := by
  induction items generalizing items' with
  | nil =>
    cases items' with
    | nil => exact ⟨rfl, (List.cons.inj h).2⟩
    | cons => simp [remainder] at h
  | cons item items ih =>
    cases items' with
    | nil => simp [remainder] at h
    | cons item' items' =>
      rw [List.forall_mem_cons] at hitems hfree
      simp only [remainder, List.cons_append, List.append_assoc, List.cons.injEq, true_and] at h
      obtain ⟨rfl, hmore⟩ := hitems.1 _ _ _ hfree.1 (isDigit_head?_remainder items rest)
        (isDigit_head?_remainder items' rest') h
      obtain ⟨rfl, hrest⟩ := ih hitems.2 hfree.2 hmore
      exact ⟨rfl, hrest⟩

theorem text_list_nil_append_ne {item : Literal} (hitem : item.IsFloatFree) :
    text (list []) ++ rest ≠ text (list (item :: items)) ++ rest' := by
  obtain ⟨c, cs, htext, -, hne⟩ := hitem.exists_text_eq_cons
  simp [text_list_nil, text_list_cons, htext, hne.symm]

theorem isDelimited_list (hitems : ∀ item ∈ items, item.IsDelimited)
    (hfree : ∀ item ∈ items, item.IsFloatFree) : (list items).IsDelimited := by
  intro b rest rest' hb _ _ h
  have hkind := (IsFloatFree.list hfree).kind_eq hb h
  cases hb with
  | @list items' hfree' =>
    cases items with
    | nil =>
      cases items' with
      | nil => exact ⟨rfl, by simpa [text_list_nil] using h⟩
      | cons item' items' =>
        exact absurd h (text_list_nil_append_ne (hfree' item' List.mem_cons_self))
    | cons item items =>
      cases items' with
      | nil => exact absurd h.symm (text_list_nil_append_ne (hfree item List.mem_cons_self))
      | cons item' items' =>
        have hmore : remainder (item :: items) ++ rest = remainder (item' :: items') ++ rest' := by
          simpa [text_list_cons, remainder] using h
        obtain ⟨hsame, hrest⟩ := remainder_append_inj hitems hfree' hmore
        exact ⟨congrArg list hsame, hrest⟩
  | _ => simp [kind] at hkind

theorem IsFloatFree.isDelimited (ha : a.IsFloatFree) : a.IsDelimited := by
  -- What ends the text: the letters of a boolean, the character behind a number that is no digit, the
  -- quotes of a string and the brackets of a list.
  induction ha with
  | bool value =>
    intro b rest rest' hb _ _ h
    have hkind := (IsFloatFree.bool value).kind_eq hb h
    cases hb with
    | bool value' =>
      obtain rfl : value = value' := by cases value <;> cases value' <;> simp [text] at h ⊢
      exact ⟨rfl, List.append_cancel_left h⟩
    | _ => simp [kind] at hkind
  | int value =>
    intro b rest rest' hb hrest hrest' h
    have hkind := (IsFloatFree.int value).kind_eq hb h
    cases hb with
    | int value' =>
      obtain ⟨hvalue, htail⟩ := Decimal.ofInt_append_inj hrest hrest' h
      exact ⟨congrArg Literal.int (Int64.toInt_inj.mp hvalue), htail⟩
    | _ => simp [kind] at hkind
  | string value =>
    intro b rest rest' hb _ _ h
    have hkind := (IsFloatFree.string value).kind_eq hb h
    cases hb with
    | string value' =>
      obtain ⟨hvalue, htail⟩ := Text.quoted_append_inj h
      exact ⟨congrArg Literal.string (String.toList_inj.mp hvalue), htail⟩
    | _ => simp [kind] at hkind
  | list hfree ih => exact isDelimited_list ih hfree

/-! Control characters -/

theorem isPrintable_remainder (hitems : ∀ item ∈ items, Text.isPrintable item.text = true) :
    Text.isPrintable (remainder items) = true := by
  induction items with
  | nil => decide
  | cons item items ih =>
    rw [List.forall_mem_cons] at hitems
    rw [remainder, Text.isPrintable_cons, Text.isPrintable_cons, Text.isPrintable_append, hitems.1,
      ih hitems.2]
    rfl

theorem IsFloatFree.isPrintable_text (ha : a.IsFloatFree) : Text.isPrintable a.text = true := by
  induction ha with
  | bool value => cases value <;> decide
  | int value => exact Decimal.isPrintable_ofInt value.toInt
  | string value => exact Text.isPrintable_quoted value.toList
  | @list items _ ih =>
    cases items with
    | nil => decide
    | cons item items =>
      rw [List.forall_mem_cons] at ih
      rw [text_list_cons, Text.isPrintable_cons, Text.isPrintable_append, ih.1,
        isPrintable_remainder ih.2]
      rfl

/-- Without floats, literals have the same text exactly when they are equal, and the text stays on one
line. -/
theorem text_eq_iff (ha : a.IsFloatFree) (hb : b.IsFloatFree) :
    (a.text = b.text ↔ (a == b) = true) ∧ ∀ c ∈ a.text, 0x20 ≤ c.toNat := by
  refine ⟨?_, Text.isPrintable_iff.mp ha.isPrintable_text⟩
  have hend : ∀ c ∈ ([] : List Char).head?, c.isDigit = false := by simp
  have hinj : a.text = b.text → a = b := by
    intro h
    have happend : a.text ++ [] = b.text ++ [] := by rw [h]
    exact (ha.isDelimited b [] [] hb hend hend happend).1
  calc a.text = b.text ↔ a = b := ⟨hinj, congrArg text⟩
    _ ↔ (a == b) = true := (ha.same_iff b).symm

/-- One string that looks like two of them between its quotes, with an escape and a line feed behind
it, beside the two strings. -/
theorem text_eq_iff_of_commas :
    let a := list [.string "x\", \"y\x1b\n", .list [.bool true, .list []], .int (-1)]
    let b := list [.string "x", .string "y\x1b\n", .list [.bool true, .list []], .int (-1)]
    a.IsFloatFree ∧ b.IsFloatFree ∧ (a.text = b.text ↔ (a == b) = true) ∧
      (∀ c ∈ a.text, 0x20 ≤ c.toNat) ∧ a.text ≠ b.text := by
  intro a b
  have hinner : IsFloatFree (.list [.bool true, .list []]) :=
    .list (by simpa only [List.forall_mem_cons] using ⟨.bool true, .list (by simp), by simp⟩)
  have ha : a.IsFloatFree :=
    .list (by simpa only [List.forall_mem_cons] using ⟨.string _, hinner, .int _, by simp⟩)
  have hb : b.IsFloatFree :=
    .list (by simpa only [List.forall_mem_cons] using ⟨.string _, .string _, hinner, .int _, by simp⟩)
  obtain ⟨hiff, hprintable⟩ := text_eq_iff ha hb
  have hne : (a == b) = false := by decide
  exact ⟨ha, hb, hiff, hprintable, fun heq => absurd (hiff.mp heq) (by simp [hne])⟩

end Literal
end MessageSchema
