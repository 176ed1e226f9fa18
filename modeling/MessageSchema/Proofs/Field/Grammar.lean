import MessageSchema.Proofs.Field.Pieces
import Mathlib.Data.List.TakeWhile

/-!
The grammar of declarations. A cut divides a line into a type, brackets, a gap, a name, blanks and a
value. The grammar says of each piece which characters it may have, and that is enough to tell where
it ends: a line has one cut at most, and it declares a field exactly when it has one.
-/
namespace MessageSchema

/-- A line in pieces, with the digits between the brackets if there are any brackets, and all that
follows the equals sign if there is one. -/
structure Cut where
  typeName : List Char
  digits : Option (List Char)
  gap : List Char
  name : List Char
  blanks : List Char
  value : Option (List Char)

namespace Cut

def bracketed : Option (List Char) → List Char
  | none => []
  | some digits => '[' :: (digits ++ [']'])

def assigned : Option (List Char) → List Char
  | none => []
  | some value => '=' :: value

def line (c : Cut) : Line :=
  c.typeName ++ (bracketed c.digits ++ (c.gap ++ (c.name ++ (c.blanks ++ assigned c.value))))

/-- Digits of a number that fits into sixty-four bits, perhaps with zeros in front; or none at all. -/
def IsLength (digits : List Char) : Prop :=
  (∀ a ∈ digits, a.isDigit = true) ∧ Decimal.toNat digits < UInt64.size

structure IsLawful (c : Cut) : Prop where
  typeName_ne : c.typeName ≠ []
  typeName : ∀ a ∈ c.typeName, Text.isBlank a = false ∧ a ≠ '['
  digits : ∀ digits, c.digits = some digits → IsLength digits
  gap_ne : c.gap ≠ []
  gap : ∀ a ∈ c.gap, Text.isBlank a = true
  name_ne : c.name ≠ []
  name : ∀ a ∈ c.name, Text.isBlank a = false ∧ a ≠ '='
  blanks : ∀ a ∈ c.blanks, Text.isBlank a = true

def Divides (c : Cut) (line : Line) : Prop := c.IsLawful ∧ c.line = line

def length? (c : Cut) : Option UInt64 :=
  match c.digits with
  | some (a :: as) => some (UInt64.ofNat (Decimal.toNat (a :: as)))
  | _ => none

/-- An alias gives way to the type that it stands for, unless there are brackets. -/
def fieldType (c : Cut) : String :=
  match c.digits with
  | none => TypeName.normalize (String.ofList c.typeName)
  | some _ => String.ofList c.typeName

/-- The field that the pieces make up. There is no piece for literals and bounds. -/
def field (c : Cut) : Field where
  typeName := c.fieldType
  name := String.ofList c.name
  isComplex := !TypeName.isBuiltin c.fieldType
  isArray := c.digits.isSome
  arrayLength := c.length?
  isConstant := c.value.isSome
  value := none
  valueText := c.value.map fun value => String.ofList (Text.trim value)
  upperBound := none
  arrayUpperBound := none
  defaultValue := none

def shapeOf : Option (List Char) → Shape
  | none => .single
  | some [] => .unbounded
  | some (a :: as) => .fixed (UInt64.ofNat (Decimal.toNat (a :: as)))

def declaration (c : Cut) : Declaration where
  typeName := c.typeName
  shape := shapeOf c.digits
  name := c.name
  value := c.value

theorem toField_declaration (c : Cut) : c.declaration.toField = c.field := by
  obtain ⟨typeName, digits, gap, name, blanks, value⟩ := c
  rcases digits with _ | _ | ⟨a, as⟩ <;> cases value <;> rfl

/-! Where the pieces end -/

theorem isTypeChar_iff {a : Char} :
    Declaration.isTypeChar a = true ↔ Text.isBlank a = false ∧ a ≠ '[' := by
  simp [Declaration.isTypeChar]

theorem isNameChar_iff {a : Char} :
    Declaration.isNameChar a = true ↔ Text.isBlank a = false ∧ a ≠ '=' := by
  simp [Declaration.isNameChar]

theorem forall_head?_append {P : Char → Prop} {front back : List Char} (hfront : ∀ a ∈ front, P a)
    (hback : front = [] → ∀ a ∈ back.head?, P a) : ∀ a ∈ (front ++ back).head?, P a := by
  cases front with
  | nil => exact hback rfl
  | cons first others =>
    intro a ha
    obtain rfl : first = a := by simpa using ha
    exact hfront first List.mem_cons_self

theorem head?_assigned {value : Option (List Char)} : ∀ a ∈ (assigned value).head?, a = '=' := by
  cases value <;> simp [assigned]

namespace IsLawful

variable {c : Cut} (h : c.IsLawful)
include h

theorem gap_starts (rest : List Char) :
    ∀ a ∈ (c.gap ++ rest).head?, Text.isBlank a = true :=
  forall_head?_append h.gap fun hgap => absurd hgap h.gap_ne

theorem head?_gap_ne (rest : List Char) : (c.gap ++ rest).head? ≠ some '[' :=
  fun hbracket => absurd (h.gap_starts rest _ hbracket) (by decide)

theorem typeName_stops (rest : List Char) :
    ∀ a ∈ (bracketed c.digits ++ (c.gap ++ rest)).head?, Declaration.isTypeChar a = false := by
  intro a ha
  cases hdigits : c.digits with
  | none =>
    rw [hdigits, bracketed, List.nil_append] at ha
    simp [Declaration.isTypeChar, h.gap_starts rest a ha]
  | some digits =>
    obtain rfl : '[' = a := by simpa [hdigits, bracketed] using ha
    decide

theorem gap_stops (rest : List Char) :
    ∀ a ∈ (c.name ++ rest).head?, Text.isBlank a = false :=
  forall_head?_append (fun a ha => (h.name a ha).1) fun hname => absurd hname h.name_ne

theorem name_stops :
    ∀ a ∈ (c.blanks ++ assigned c.value).head?, Declaration.isNameChar a = false := by
  refine forall_head?_append (fun a ha => ?_) fun _ a ha => ?_
  · simp [Declaration.isNameChar, h.blanks a ha]
  · obtain rfl := head?_assigned a ha
    decide

end IsLawful

theorem blanks_stop (value : Option (List Char)) :
    ∀ a ∈ (assigned value).head?, Text.isBlank a = false := by
  intro a ha
  obtain rfl := head?_assigned a ha
  decide

/-! A lawful cut is read -/

theorem shapeOfDigits_eq_some_iff {digits : List Char} {shape : Shape} :
    Declaration.shapeOfDigits digits = some shape ↔
      Decimal.toNat digits < UInt64.size ∧ shape = shapeOf (some digits) := by
  cases digits with
  | nil =>
    have hzero : Decimal.toNat [] < UInt64.size := by decide
    simp [Declaration.shapeOfDigits, shapeOf, hzero, eq_comm]
  | cons a as => simp [Declaration.shapeOfDigits, shapeOf, eq_comm]

theorem readShape_bracketed {digits? : Option (List Char)}
    (h : ∀ digits, digits? = some digits → IsLength digits) {rest : List Char}
    (hrest : rest.head? ≠ some '[') :
    Declaration.readShape (bracketed digits? ++ rest) = some (shapeOf digits?, rest) := by
  cases digits? with
  | none => exact Declaration.readShape_of_not_bracket hrest
  | some digits =>
    obtain ⟨hdigits, hsize⟩ := h digits rfl
    have hshape := shapeOfDigits_eq_some_iff.mpr ⟨hsize, rfl⟩
    simpa [bracketed, hshape] using Declaration.readShape_digits hdigits rest

theorem readValue_assigned {blanks : List Char} (h : ∀ a ∈ blanks, Text.isBlank a = true)
    (value : Option (List Char)) :
    Declaration.readValue (blanks ++ assigned value) = some value := by
  cases value with
  | none =>
    have hnothing : Text.trimStart blanks = [] := List.dropWhile_eq_nil_iff.mpr h
    simp [assigned, Declaration.readValue, hnothing]
  | some value => exact Declaration.readValue_equals h value

theorem IsLawful.read?_line {c : Cut} (h : c.IsLawful) :
    Declaration.read? c.line = some c.declaration := by
  apply Declaration.read?_append c.gap (c.blanks ++ assigned c.value) h.typeName_ne
    (fun a ha => isTypeChar_iff.mpr (h.typeName a ha)) (h.typeName_stops _) _ h.gap_ne h.gap h.name_ne
    (fun a ha => isNameChar_iff.mpr (h.name a ha)) h.name_stops (readValue_assigned h.blanks c.value)
  exact readShape_bracketed h.digits (h.head?_gap_ne _)

/-! What is read has a lawful cut -/

theorem exists_bracketed_of_readShape {cs rest : List Char} {shape : Shape}
    (h : Declaration.readShape cs = some (shape, rest)) :
    ∃ digits?, cs = bracketed digits? ++ rest ∧ shape = shapeOf digits? ∧
      ∀ digits, digits? = some digits → IsLength digits := by
  unfold Declaration.readShape at h
  split at h
  · rename_i cs
    split at h
    · rename_i rest' hdrop
      obtain ⟨shape', hshape, heq⟩ := Option.map_eq_some_iff.mp h
      obtain ⟨rfl, rfl⟩ := Prod.mk.inj heq
      obtain ⟨hsize, hshape⟩ := shapeOfDigits_eq_some_iff.mp hshape
      refine ⟨some (cs.takeWhile Char.isDigit), ?_, hshape, ?_⟩
      · have hcut := List.takeWhile_append_dropWhile (p := Char.isDigit) (l := cs)
        rw [hdrop] at hcut
        simp [bracketed, hcut]
      · intro digits hdigits
        obtain rfl := Option.some.inj hdigits
        exact ⟨fun a ha => List.mem_takeWhile_imp ha, hsize⟩
    · cases h
  · obtain ⟨rfl, rfl⟩ := Prod.mk.inj (Option.some.inj h)
    exact ⟨none, rfl, rfl, fun digits hdigits => by cases hdigits⟩

theorem exists_blanks_of_readValue {cs : List Char} {value : Option (List Char)}
    (h : Declaration.readValue cs = some value) :
    ∃ blanks, cs = blanks ++ assigned value ∧ ∀ a ∈ blanks, Text.isBlank a = true := by
  have hcut : cs = cs.takeWhile Text.isBlank ++ Text.trimStart cs :=
    List.takeWhile_append_dropWhile.symm
  refine ⟨cs.takeWhile Text.isBlank, ?_, fun a ha => List.mem_takeWhile_imp ha⟩
  have hrest : Text.trimStart cs = assigned value := by
    unfold Declaration.readValue at h
    split at h
    · rename_i hnothing
      obtain rfl := Option.some.inj h
      exact hnothing
    · rename_i value' hvalue
      obtain rfl := Option.some.inj h
      exact hvalue
    · cases h
  rw [← hrest]
  exact hcut

theorem exists_divides_of_read? {line : Line} {d : Declaration}
    (h : Declaration.read? line = some d) : ∃ c : Cut, c.Divides line ∧ c.declaration = d := by
  simp only [Declaration.read?, Option.bind_eq_bind, Option.bind_eq_some_iff, Prod.exists] at h
  obtain ⟨shape, rest, hshape, value, hvalue, _, hguard, hd⟩ := h
  obtain rfl := Option.some.inj hd
  obtain ⟨htype, hgap, hname⟩ := (Option.guard_eq_some' _).mp hguard
  obtain ⟨digits?, hbrackets, rfl, hdigits⟩ := exists_bracketed_of_readShape hshape
  obtain ⟨blanks, htail, hblanks⟩ := exists_blanks_of_readValue hvalue
  let c : Cut :=
    { typeName := line.takeWhile Declaration.isTypeChar
      digits := digits?
      gap := rest.takeWhile Text.isBlank
      name := (rest.dropWhile Text.isBlank).takeWhile Declaration.isNameChar
      blanks
      value }
  have hlawful : c.IsLawful :=
    { typeName_ne := htype
      typeName := fun a ha => isTypeChar_iff.mp (List.mem_takeWhile_imp ha)
      digits := hdigits
      gap_ne := hgap
      gap := fun a ha => List.mem_takeWhile_imp ha
      name_ne := hname
      name := fun a ha => isNameChar_iff.mp (List.mem_takeWhile_imp ha)
      blanks := hblanks }
  refine ⟨c, ⟨hlawful, ?_⟩, rfl⟩
  calc c.line
      = line.takeWhile Declaration.isTypeChar ++ (bracketed digits? ++ (rest.takeWhile Text.isBlank ++
          ((rest.dropWhile Text.isBlank).takeWhile Declaration.isNameChar ++
            (blanks ++ assigned value)))) := rfl
    _ = line := by
        rw [← htail, List.takeWhile_append_dropWhile, List.takeWhile_append_dropWhile, ← hbrackets,
          List.takeWhile_append_dropWhile]

/-- The pieces that are read are those of a lawful cut. -/
theorem read?_eq_some_iff {line : Line} {d : Declaration} :
    Declaration.read? line = some d ↔ ∃ c : Cut, c.Divides line ∧ c.declaration = d := by
  constructor
  · exact exists_divides_of_read?
  · rintro ⟨c, ⟨hlawful, rfl⟩, rfl⟩
    exact hlawful.read?_line

/-! There is one lawful cut at most -/

theorem bracketed_unique {digits? digits?' : Option (List Char)} {rest rest' : List Char}
    (h : ∀ digits, digits? = some digits → IsLength digits)
    (h' : ∀ digits, digits?' = some digits → IsLength digits)
    (hrest : rest.head? ≠ some '[') (hrest' : rest'.head? ≠ some '[')
    (heq : bracketed digits? ++ rest = bracketed digits?' ++ rest') :
    digits? = digits?' ∧ rest = rest' := by
  cases digits? with
  | none =>
    cases digits?' with
    | none => exact ⟨rfl, heq⟩
    | some digits' =>
      obtain rfl : rest = bracketed (some digits') ++ rest' := heq
      exact absurd rfl hrest
  | some digits =>
    cases digits?' with
    | none =>
      obtain rfl : bracketed (some digits) ++ rest = rest' := heq
      exact absurd rfl hrest'
    | some digits' =>
      have hstop (rest : List Char) : ∀ a ∈ (']' :: rest).head?, a.isDigit = false := by simp
      have hinside : digits ++ ']' :: rest = digits' ++ ']' :: rest' := by
        simpa [bracketed] using heq
      obtain ⟨rfl, hcons⟩ := Declaration.run_unique (h digits rfl).1 (hstop rest)
        (h' digits' rfl).1 (hstop rest') hinside
      exact ⟨rfl, (List.cons.inj hcons).2⟩

theorem assigned_inj {value value' : Option (List Char)} (h : assigned value = assigned value') :
    value = value' := by
  cases value <;> cases value' <;> simp_all [assigned]

theorem IsLawful.eq_of_line {c c' : Cut} (h : c.IsLawful) (h' : c'.IsLawful)
    (heq : c.line = c'.line) : c = c' := by
  -- Piece by piece from the front, both cuts have to stop at the same place.
  obtain ⟨htype, heq⟩ := Declaration.run_unique
    (fun a ha => isTypeChar_iff.mpr (h.typeName a ha)) (h.typeName_stops _)
    (fun a ha => isTypeChar_iff.mpr (h'.typeName a ha)) (h'.typeName_stops _) heq
  obtain ⟨hdigits, heq⟩ :=
    bracketed_unique h.digits h'.digits (h.head?_gap_ne _) (h'.head?_gap_ne _) heq
  obtain ⟨hgap, heq⟩ :=
    Declaration.run_unique h.gap (h.gap_stops _) h'.gap (h'.gap_stops _) heq
  obtain ⟨hname, heq⟩ := Declaration.run_unique
    (fun a ha => isNameChar_iff.mpr (h.name a ha)) h.name_stops
    (fun a ha => isNameChar_iff.mpr (h'.name a ha)) h'.name_stops heq
  obtain ⟨hblanks, heq⟩ :=
    Declaration.run_unique h.blanks (blanks_stop _) h'.blanks (blanks_stop _) heq
  have hvalue := assigned_inj heq
  cases c
  cases c'
  simp_all

end Cut

/-- A line declares a field exactly when there is a lawful cut of it. There is only one then, and the
field is the one that its pieces make up. Any other line is refused as it stands. -/
theorem Field.ofLine_spec (line : Line) :
    match Field.ofLine line with
    | .ok f => (∃! c : Cut, c.Divides line) ∧ ∀ c : Cut, c.Divides line → f = c.field
    | .error e => (¬ ∃ c : Cut, c.Divides line) ∧ e = .malformedField (String.ofList line) := by
  rw [Field.ofLine]
  cases hread : Declaration.read? line with
  | none =>
    refine ⟨fun ⟨c, hc⟩ => ?_, rfl⟩
    have hsome := Cut.read?_eq_some_iff.mpr ⟨c, hc, rfl⟩
    simp [hread] at hsome
  | some d =>
    obtain ⟨c, hc, rfl⟩ := Cut.read?_eq_some_iff.mp hread
    have hunique : ∀ c' : Cut, c'.Divides line → c' = c :=
      fun c' hc' => hc'.1.eq_of_line hc.1 (hc'.2.trans hc.2.symm)
    refine ⟨⟨c, hc, hunique⟩, fun c' hc' => ?_⟩
    rw [hunique c' hc', Cut.toField_declaration]

/-- A length may have zeros in front of it, but it has to fit. An alias stays in front of brackets, and
a value may start with an equals sign. -/
example : Field.ofLine "byte[007]\u2003n\t== ".toList =
      .ok (((Field.plain "byte" "n").asArray (some 7)).asConstant "=") ∧
    Field.ofLine "byte[18446744073709551616] n".toList =
      .error (.malformedField "byte[18446744073709551616] n") :=
  ⟨rfl, rfl⟩

end MessageSchema
