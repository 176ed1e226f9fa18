import MessageSchema.Decimal.Double

/-!
Shortest decimals. The decimal that is taken for a number rounds back to it, no point of a coarser
grid does, and of the points of its own grid that do none is closer.
-/
namespace MessageSchema
namespace Decimal

namespace Span

variable {s : Span} {step n m r r' : Nat}

theorem holds_iff (s : Span) (r : Nat) :
    s.holds r = true ↔ if s.closed then s.low ≤ r ∧ r ≤ s.high else s.low < r ∧ r < s.high := by
  cases h : s.closed <;> simp [holds, h]

theorem le_of_holds (h : s.holds r = true) : s.low ≤ r ∧ r ≤ s.high := by
  rw [holds_iff] at h
  split at h <;> omega

theorem holds_between (h : s.holds r = true) (h' : s.holds r' = true) (hle : r ≤ m) (hle' : m ≤ r') :
    s.holds m = true := by
  rw [holds_iff] at h h' ⊢
  split at h <;> simp_all <;> omega

theorem neighbours (s : Span) (hstep : 0 < step) :
    s.value / step * step + s.value % step = s.value ∧ s.value % step < step ∧
      (s.value / step + 1) * step = s.value / step * step + step :=
  ⟨Nat.div_add_mod' _ _, Nat.mod_lt _ hstep, Nat.succ_mul _ _⟩

theorem nearest?_eq_some (h : s.nearest? step = some n) :
    (n = s.value / step ∧ s.holds (s.value / step * step) = true ∧
        (s.holds ((s.value / step + 1) * step) = true → 2 * (s.value % step) < step)) ∨
      (n = s.value / step + 1 ∧ s.holds ((s.value / step + 1) * step) = true ∧
        (s.holds (s.value / step * step) = true → step ≤ 2 * (s.value % step))) := by
  simp only [nearest?] at h
  split at h
  case h_1 hbelow habove =>
    split at h
    case isTrue hlt => exact .inl ⟨(Option.some.inj h).symm, hbelow, fun _ => hlt⟩
    case isFalse hge => exact .inr ⟨(Option.some.inj h).symm, habove, fun _ => Nat.le_of_not_lt hge⟩
  case h_2 hbelow habove => exact .inl ⟨(Option.some.inj h).symm, hbelow, by simp [habove]⟩
  case h_3 hbelow habove => exact .inr ⟨(Option.some.inj h).symm, habove, by simp [hbelow]⟩
  case h_4 => cases h

theorem nearest?_eq_none (h : s.nearest? step = none) :
    s.holds (s.value / step * step) = false ∧ s.holds ((s.value / step + 1) * step) = false := by
  simp only [nearest?] at h
  split at h
  case h_1 => split at h <;> cases h
  case h_4 hbelow habove => exact ⟨hbelow, habove⟩
  all_goals cases h

def distance (s : Span) (r : Nat) : Nat := (r - s.value) + (s.value - r)

/-- Of the multiples of `step` in the span, those below are no closer to the value and those above are
farther away. -/
structure IsNearest (s : Span) (step n : Nat) : Prop where
  holds : s.holds (n * step) = true
  below : ∀ m < n, s.holds (m * step) = true → s.distance (n * step) ≤ s.distance (m * step)
  above : ∀ m > n, s.holds (m * step) = true → s.distance (n * step) < s.distance (m * step)

variable (hstep : 0 < step) (hvalue : s.holds s.value = true)
include hstep hvalue

/-- A multiple in the span has the neighbour on its side in the span, too. -/
theorem holds_neighbour (h : s.holds (m * step) = true) :
    (m ≤ s.value / step ∧ m * step ≤ s.value / step * step ∧
        s.holds (s.value / step * step) = true) ∨
      (s.value / step < m ∧ (s.value / step + 1) * step ≤ m * step ∧
        s.holds ((s.value / step + 1) * step) = true) := by
  obtain ⟨hbelow, hmod, habove⟩ := s.neighbours hstep
  rcases Nat.lt_or_ge (s.value / step) m with hm | hm
  · have hle : (s.value / step + 1) * step ≤ m * step := Nat.mul_le_mul_right step hm
    exact .inr ⟨hm, hle, holds_between hvalue h (by omega) hle⟩
  · have hle : m * step ≤ s.value / step * step := Nat.mul_le_mul_right step hm
    exact .inl ⟨hm, hle, holds_between h hvalue hle (by omega)⟩

theorem isNearest_of_nearest? (h : s.nearest? step = some n) : s.IsNearest step n := by
  obtain ⟨hbelow, hmod, habove⟩ := s.neighbours hstep
  have hside {m : Nat} := holds_neighbour hstep hvalue (m := m)
  rcases nearest?_eq_some h with ⟨rfl, hn, hother⟩ | ⟨rfl, hn, hother⟩
  · refine ⟨hn, fun m hm hholds => ?_, fun m hm hholds => ?_⟩
    · have hle : m * step ≤ s.value / step * step := Nat.mul_le_mul_right step (Nat.le_of_lt hm)
      simp only [distance]
      omega
    · rcases hside hholds with ⟨hle, -⟩ | ⟨-, hle, hneighbour⟩
      · omega
      · have hfar := hother hneighbour
        simp only [distance]
        omega
  · refine ⟨hn, fun m hm hholds => ?_, fun m hm hholds => ?_⟩
    · rcases hside hholds with ⟨-, hle, hneighbour⟩ | ⟨hlt, -⟩
      · have hfar := hother hneighbour
        simp only [distance]
        omega
      · omega
    · have hlt : (s.value / step + 1) * step < m * step := Nat.mul_lt_mul_of_pos_right hm hstep
      simp only [distance]
      omega

theorem not_holds_of_nearest? (h : s.nearest? step = none) (m : Nat) :
    s.holds (m * step) = false := by
  obtain ⟨hbelow, habove⟩ := nearest?_eq_none h
  refine Bool.eq_false_iff.mpr fun hholds => ?_
  rcases holds_neighbour hstep hvalue hholds with ⟨-, -, hneighbour⟩ | ⟨-, -, hneighbour⟩
  · simp [hbelow] at hneighbour
  · simp [habove] at hneighbour

end Span

namespace Binary

variable {x : Binary}

theorem weight_pos (x : Binary) : 0 < x.weight :=
  Nat.mul_pos (Nat.pow_pos (by decide)) (Nat.pow_pos (by decide))

theorem value_span (x : Binary) : x.span.value = x.exact.steps * 4 := by
  simp only [span, exact, Nat.mul_assoc, Nat.mul_comm, Nat.mul_left_comm]

theorem holds_value (x : Binary) : x.span.holds x.span.value = true := by
  have hhigh : x.span.value < x.span.high :=
    Nat.mul_lt_mul_of_pos_right (by omega) x.weight_pos
  rw [Span.holds_iff]
  split
  case isTrue =>
    have hlow : x.span.low ≤ x.span.value := Nat.mul_le_mul_right _ (Nat.sub_le _ _)
    exact ⟨hlow, Nat.le_of_lt hhigh⟩
  case isFalse hopen =>
    -- The mantissa is odd, so there is something below the number.
    have hodd : x.mantissa % 2 ≠ 0 := by simpa [span] using hopen
    have hlow : x.span.low < x.span.value := by
      refine Nat.mul_lt_mul_of_pos_right ?_ x.weight_pos
      split <;> omega
    exact ⟨hlow, hhigh⟩

theorem not_holds_of_length_lt (hx : 0 < x.mantissa) {j : Nat}
    (hj : (ofNat x.exact.steps).length < j) (m : Nat) :
    x.span.holds (m * (4 * Nat.pow 10 j)) = false := by
  refine Bool.eq_false_iff.mpr fun hholds => ?_
  obtain ⟨hlow, hhigh⟩ := Span.le_of_holds hholds
  have hpos : 0 < x.span.low := by
    refine Nat.mul_pos ?_ x.weight_pos
    split <;> omega
  -- The number has fewer digits than the grid has places, so the grid skips the whole span.
  have hlarge : x.span.high ≤ 6 * x.exact.steps := by
    rw [exact, ← Nat.mul_assoc]
    exact Nat.mul_le_mul_right _ (by omega)
  have hdigits : x.exact.steps < Nat.pow 10 (ofNat x.exact.steps).length :=
    (Nat.length_toDigits_le_iff (by decide) Nat.length_toDigits_pos).mp (Nat.le_refl _)
  have hpower : Nat.pow 10 (ofNat x.exact.steps).length * 10 ≤ Nat.pow 10 j :=
    Nat.pow_le_pow_right (n := 10) (by decide) hj
  have hm : 0 < m := Nat.pos_of_mul_pos_right (by omega : 0 < m * (4 * Nat.pow 10 j))
  have hmul : 4 * Nat.pow 10 j ≤ m * (4 * Nat.pow 10 j) := Nat.le_mul_of_pos_left _ hm
  omega

/-- The point rounds to the number and no point of a coarser grid does. On its own grid the points
below that round to the number are no closer, and those above are farther away. -/
inductive IsShortest (x : Binary) : GridPoint → Prop
  | intro {i n : Nat} : x.span.IsNearest (4 * Nat.pow 10 i) n →
      (∀ j > i, ∀ m, x.span.holds (m * (4 * Nat.pow 10 j)) = false) → IsShortest x ⟨n, x.place + i⟩

end Binary

theorem mem_of_reverse_range {count i j : Nat} {before after : List Nat}
    (hsplit : (List.range count).reverse = before ++ i :: after) (hcount : j < count) (hj : i < j) :
    j ∈ before := by
  have hfalling : (before ++ i :: after).Pairwise fun a b => b < a :=
    hsplit ▸ List.pairwise_reverse.mpr List.pairwise_lt_range
  have hmem : j ∈ before ++ i :: after := hsplit ▸ by simpa using hcount
  obtain ⟨-, htail, -⟩ := List.pairwise_append.mp hfalling
  rcases List.mem_append.mp hmem with hbefore | hafter
  · exact hbefore
  · rcases List.mem_cons.mp hafter with rfl | hafter
    · omega
    · have hlt : j < i := (List.pairwise_cons.mp htail).1 j hafter
      omega

/-- The decimal that is taken is a shortest one. -/
theorem isShortest_shortest {x : Binary} (hx : 0 < x.mantissa) : x.IsShortest (shortest x) := by
  have hstep (i : Nat) : 0 < 4 * Nat.pow 10 i := Nat.mul_pos (by decide) (Nat.pow_pos (by decide))
  have hvalue := x.holds_value
  unfold shortest
  simp only
  -- The search goes from the coarsest grid to finer ones, and on the finest it finds the number.
  cases hfound : List.findSome? _ _ with
  | none =>
    rw [List.findSome?_eq_none_iff] at hfound
    have hnone := Option.map_eq_none_iff.mp (hfound 0 (by simp))
    have hexact := Span.not_holds_of_nearest? (hstep 0) hvalue hnone x.exact.steps
    rw [Binary.value_span] at hvalue
    simp [hvalue] at hexact
  | some p =>
    obtain ⟨coarser, i, finer, hraises, hi, hnone⟩ := List.findSome?_eq_some_iff.mp hfound
    obtain ⟨n, hn, rfl⟩ := Option.map_eq_some_iff.mp hi
    refine .intro (Span.isNearest_of_nearest? (hstep i) hvalue hn) fun j hj m => ?_
    rcases Nat.lt_or_ge (ofNat x.exact.steps).length j with hlarge | hsmall
    · exact Binary.not_holds_of_length_lt hx hlarge m
    · have hcoarser := hnone j (mem_of_reverse_range hraises (by omega) hj)
      exact Span.not_holds_of_nearest? (hstep j) hvalue (Option.map_eq_none_iff.mp hcoarser) m

theorem Double.mantissa_pos {bits : Nat} {negative : Bool} {x : Binary}
    (h : ofBits bits = .finite negative x) : 0 < x.mantissa := by
  simp only [ofBits] at h
  split at h
  case isTrue => split at h <;> cases h
  case isFalse =>
    split at h
    case isTrue =>
      split at h
      case isTrue => cases h
      case isFalse hfraction =>
        obtain ⟨-, rfl⟩ := Double.finite.inj h
        exact Nat.pos_of_ne_zero hfraction
    case isFalse =>
      obtain ⟨-, rfl⟩ := Double.finite.inj h
      exact Nat.add_pos_left (by decide) _

/-- The digits that are laid out for a double are those of a shortest decimal. -/
theorem Double.isShortest_of_ofBits {bits : Nat} {negative : Bool} {x : Binary}
    (h : ofBits bits = .finite negative x) : x.IsShortest (shortest x) :=
  isShortest_shortest (mantissa_pos h)

/-- The least positive double: five is nearer to it than three, four, six or seven. -/
example : shortest ⟨1, -1074, false⟩ = ⟨5, -324⟩ := by decide +kernel

/-- `2.98023223876953125e-8` lies halfway between two points of the grid that is taken. -/
example : shortest ⟨0x10000000000000, -77, true⟩ = ⟨29802322387695313, -24⟩ := by decide +kernel

/-- The least double that is written with an exponent again. -/
example : (Double.ofBits 0x4341C37937E08000).render .literal = ['1', 'e', '1', '6'] := by
  decide +kernel

end Decimal
end MessageSchema
