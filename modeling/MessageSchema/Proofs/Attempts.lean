import Mathlib.Data.List.Forall2

/-!
Attempts in sequence. An attempt on each element of a list succeeds with the results of all of
them, and fails with the failure of one of them.
-/
namespace MessageSchema
namespace Attempts

variable {α β ε : Type}

theorem ok_bind (a : α) (g : α → Except ε β) : (Except.ok a >>= g) = g a := rfl

theorem pure_eq_ok_iff {a b : α} : (pure a : Except ε α) = .ok b ↔ b = a :=
  ⟨fun h => (Except.ok.inj h).symm, fun h => h ▸ rfl⟩

theorem bind_eq_ok_iff {x : Except ε α} {g : α → Except ε β} {b : β} :
    (x >>= g) = .ok b ↔ ∃ a, x = .ok a ∧ g a = .ok b := by
  cases x <;> simp [bind, Except.bind]

theorem bind_eq_error_iff {x : Except ε α} {g : α → Except ε β} {e : ε} :
    (x >>= g) = .error e ↔ x = .error e ∨ ∃ a, x = .ok a ∧ g a = .error e := by
  cases x <;> simp [bind, Except.bind]

theorem map_eq_ok_iff {x : Except ε α} {g : α → β} {b : β} :
    x.map g = .ok b ↔ ∃ a, x = .ok a ∧ g a = b := by
  cases x <;> simp [Except.map]

theorem map_eq_error_iff {x : Except ε α} {g : α → β} {e : ε} :
    x.map g = .error e ↔ x = .error e := by
  cases x <;> simp [Except.map]

theorem mapM_eq_ok_iff {f : α → Except ε β} {as : List α} {bs : List β} :
    as.mapM f = .ok bs ↔ List.Forall₂ (fun a b => f a = .ok b) as bs := by
  induction as generalizing bs with
  | nil =>
    rw [List.mapM_nil, List.forall₂_nil_left_iff]
    exact pure_eq_ok_iff
  | cons a as ih =>
    rw [List.mapM_cons, bind_eq_ok_iff, List.forall₂_cons_left_iff]
    refine exists_congr fun b => ?_
    rw [bind_eq_ok_iff, ← exists_and_left]
    refine exists_congr fun rest => ?_
    rw [ih, pure_eq_ok_iff]

theorem mapM_congr {γ : Type} {f : α → Except ε β} {g : γ → Except ε β} {as : List α} {cs : List γ}
    (h : List.Forall₂ (fun a c => f a = g c) as cs) : as.mapM f = cs.mapM g := by
  induction h with
  | nil => rfl
  | cons hac _ ih => simp [hac, ih]

theorem getElem?_of_mapM_eq_ok {f : α → Except ε β} {as : List α} {bs : List β}
    (h : as.mapM f = .ok bs) (i : ℕ) : bs[i]?.map .ok = as[i]?.map f := by
  rw [mapM_eq_ok_iff] at h
  induction h generalizing i with
  | nil => rfl
  | @cons a b as bs hab _ ih =>
    cases i with
    | zero => exact congrArg some hab.symm
    | succ i => exact ih i

theorem mapM_unique {f g : α → Except ε β}
    (hfg : ∀ a b b', f a = .ok b → g a = .ok b' → b = b') {as : List α} {bs bs' : List β}
    (h : as.mapM f = .ok bs) (h' : as.mapM g = .ok bs') : bs = bs' := by
  rw [mapM_eq_ok_iff] at h h'
  induction h generalizing bs' with
  | nil => exact (List.forall₂_nil_left_iff.mp h').symm
  | cons hab _ ih =>
    cases h' with
    | cons hab' hrest' => rw [hfg _ _ _ hab hab', ih hrest']

theorem exists_result_of_mapM_eq_ok {f : α → Except ε β} {as : List α} {bs : List β}
    (h : as.mapM f = .ok bs) : ∀ a ∈ as, ∃ b ∈ bs, f a = .ok b := by
  rw [mapM_eq_ok_iff] at h
  induction h with
  | nil => simp
  | @cons a b as bs hab _ ih =>
    refine List.forall_mem_cons.mpr ⟨⟨b, List.mem_cons_self, hab⟩, fun a' ha' => ?_⟩
    obtain ⟨b', hmem, hb'⟩ := ih a' ha'
    exact ⟨b', List.mem_cons_of_mem b hmem, hb'⟩

theorem exists_source_of_mapM_eq_ok {f : α → Except ε β} {as : List α} {bs : List β}
    (h : as.mapM f = .ok bs) : ∀ b ∈ bs, ∃ a ∈ as, f a = .ok b := by
  rw [mapM_eq_ok_iff] at h
  induction h with
  | nil => simp
  | @cons a b as bs hab _ ih =>
    refine List.forall_mem_cons.mpr ⟨⟨a, List.mem_cons_self, hab⟩, fun b' hb' => ?_⟩
    obtain ⟨a', hmem, ha'⟩ := ih b' hb'
    exact ⟨a', List.mem_cons_of_mem a hmem, ha'⟩

theorem mapM_eq_ok_iff_of_fixed {f : α → Except ε α} {P : α → Prop} {as bs : List α}
    (h : ∀ a ∈ as, ∀ b, f a = .ok b ↔ b = a ∧ P a) :
    as.mapM f = .ok bs ↔ bs = as ∧ ∀ a ∈ as, P a := by
  induction as generalizing bs with
  | nil =>
    rw [List.mapM_nil, pure_eq_ok_iff]
    simp
  | cons a as ih =>
    rw [List.forall_mem_cons] at h
    rw [List.mapM_cons, bind_eq_ok_iff, List.forall_mem_cons]
    constructor
    · rintro ⟨b, hb, hrest⟩
      obtain ⟨rest, hmap, hpure⟩ := bind_eq_ok_iff.mp hrest
      obtain ⟨rfl, ha⟩ := (h.1 b).mp hb
      obtain ⟨rfl, has⟩ := (ih h.2).mp hmap
      exact ⟨pure_eq_ok_iff.mp hpure, ha, has⟩
    · rintro ⟨rfl, ha, has⟩
      refine ⟨a, (h.1 a).mpr ⟨rfl, ha⟩, ?_⟩
      rw [(ih h.2).mpr ⟨rfl, has⟩]
      rfl

theorem exists_mapM_eq_ok_iff {f : α → Except ε β} {as : List α} :
    (∃ bs, as.mapM f = .ok bs) ↔ ∀ a ∈ as, ∃ b, f a = .ok b := by
  constructor
  · rintro ⟨bs, h⟩ a ha
    obtain ⟨b, -, hb⟩ := exists_result_of_mapM_eq_ok h a ha
    exact ⟨b, hb⟩
  · intro h
    simp only [mapM_eq_ok_iff]
    induction as with
    | nil => exact ⟨[], .nil⟩
    | cons a as ih =>
      rw [List.forall_mem_cons] at h
      obtain ⟨⟨b, hb⟩, hrest⟩ := h
      obtain ⟨bs, hbs⟩ := ih hrest
      exact ⟨b :: bs, .cons hb hbs⟩

theorem mapM_cons_eq_error_iff {f : α → Except ε β} {a : α} {as : List α} {e : ε} :
    (a :: as).mapM f = .error e ↔
      f a = .error e ∨ (∃ b, f a = .ok b) ∧ as.mapM f = .error e := by
  rw [List.mapM_cons]
  cases f a with
  | error e' => simp [bind, Except.bind]
  | ok b => cases as.mapM f <;> simp [bind, Except.bind, pure, Except.pure]

theorem mapM_eq_error_iff {f : α → Except ε β} {as : List α} {e : ε} :
    as.mapM f = .error e ↔ ∃ before a after, as = before ++ a :: after ∧
      (∀ c ∈ before, ∃ b, f c = .ok b) ∧ f a = .error e := by
  induction as with
  | nil => simp [pure, Except.pure]
  | cons a as ih =>
    rw [mapM_cons_eq_error_iff]
    constructor
    · rintro (ha | ⟨hfirst, hrest⟩)
      · exact ⟨[], a, as, rfl, by simp, ha⟩
      · obtain ⟨before, a', after, rfl, hbefore, ha'⟩ := ih.mp hrest
        exact ⟨a :: before, a', after, rfl, List.forall_mem_cons.mpr ⟨hfirst, hbefore⟩, ha'⟩
    · rintro ⟨_ | ⟨c, before⟩, a', after, heq, hbefore, ha'⟩
      · obtain ⟨rfl, -⟩ := List.cons.inj heq
        exact .inl ha'
      · obtain ⟨rfl, rfl⟩ := List.cons.inj heq
        obtain ⟨hfirst, hothers⟩ := List.forall_mem_cons.mp hbefore
        exact .inr ⟨hfirst, ih.mpr ⟨before, a', after, rfl, hothers, ha'⟩⟩

theorem exists_of_mapM_eq_error {f : α → Except ε β} {as : List α} {e : ε}
    (h : as.mapM f = .error e) : ∃ a ∈ as, f a = .error e := by
  obtain ⟨before, a, after, rfl, -, ha⟩ := mapM_eq_error_iff.mp h
  exact ⟨a, by simp, ha⟩

theorem mapM_eq_ok_map {f : α → Except ε β} {g : α → β} {as : List α}
    (h : ∀ a ∈ as, f a = .ok (g a)) : as.mapM f = .ok (as.map g) := by
  rw [mapM_eq_ok_iff, List.forall₂_map_right_iff, List.forall₂_same]
  exact h

theorem forall_mem_results_iff {f : α → Except ε β} {P : α → Prop} {Q : β → Prop}
    (hPQ : ∀ a b, f a = .ok b → (Q b ↔ P a)) {as : List α} {bs : List β}
    (h : as.mapM f = .ok bs) : (∀ b ∈ bs, Q b) ↔ ∀ a ∈ as, P a := by
  rw [mapM_eq_ok_iff] at h
  induction h with
  | nil => simp
  | cons hab _ ih => rw [List.forall_mem_cons, List.forall_mem_cons, ih, hPQ _ _ hab]

theorem pairwise_results_iff {f : α → Except ε β} {R : α → α → Prop} {S : β → β → Prop}
    (hRS : ∀ a a' b b', f a = .ok b → f a' = .ok b' → (S b b' ↔ R a a')) {as : List α}
    {bs : List β} (h : as.mapM f = .ok bs) : bs.Pairwise S ↔ as.Pairwise R := by
  rw [mapM_eq_ok_iff] at h
  induction h with
  | nil => simp
  | @cons a b as bs hab hrest ih =>
    have hfirst : (∀ b' ∈ bs, S b b') ↔ ∀ a' ∈ as, R a a' :=
      forall_mem_results_iff (fun a' b' => hRS a a' b b' hab) (mapM_eq_ok_iff.mpr hrest)
    rw [List.pairwise_cons, List.pairwise_cons, hfirst, ih]

/-- Two lists have the same results when they agree up to what the attempts tell apart. -/
theorem results_eq_iff {f : α → Except ε β} {R : α → α → Prop}
    (hR : ∀ a a' b b', f a = .ok b → f a' = .ok b' → (b = b' ↔ R a a')) {as as' : List α}
    {bs bs' : List β} (h : as.mapM f = .ok bs) (h' : as'.mapM f = .ok bs') :
    bs = bs' ↔ List.Forall₂ R as as' := by
  rw [mapM_eq_ok_iff] at h h'
  induction h generalizing as' bs' with
  | nil => cases h' <;> simp
  | cons hab _ ih =>
    cases h' with
    | nil => simp
    | cons hab' hrest' => rw [List.cons.injEq, List.forall₂_cons, ih hrest', hR _ _ _ _ hab hab']

theorem foldlM_preserves {P : β → Prop} {step : β → α → Except ε β} {as : List α}
    (hstep : ∀ a ∈ as, ∀ b b', P b → step b a = .ok b' → P b') {b b' : β} (hb : P b)
    (h : as.foldlM step b = .ok b') : P b' := by
  induction as generalizing b with
  | nil =>
    rw [List.foldlM_nil, pure_eq_ok_iff] at h
    rwa [h]
  | cons a as ih =>
    rw [List.foldlM_cons, bind_eq_ok_iff] at h
    obtain ⟨next, hfirst, hrest⟩ := h
    have hnext : P next := hstep a List.mem_cons_self b next hb hfirst
    exact ih (fun a' ha' => hstep a' (List.mem_cons_of_mem a ha')) hnext hrest

/-- A run fails at the first step that fails, and with its failure. -/
theorem foldlM_eq_error_iff {step : β → α → Except ε β} {as : List α} {b : β} {e : ε} :
    as.foldlM step b = .error e ↔ ∃ before a after b', as = before ++ a :: after ∧
      before.foldlM step b = .ok b' ∧ step b' a = .error e := by
  induction as generalizing b with
  | nil => simp [pure, Except.pure]
  | cons a as ih =>
    rw [List.foldlM_cons, bind_eq_error_iff]
    constructor
    · rintro (ha | ⟨next, hnext, hrest⟩)
      · exact ⟨[], a, as, b, rfl, rfl, ha⟩
      · obtain ⟨before, a', after, b', rfl, hbefore, ha'⟩ := ih.mp hrest
        refine ⟨a :: before, a', after, b', rfl, ?_, ha'⟩
        rw [List.foldlM_cons, hnext]
        exact hbefore
    · rintro ⟨_ | ⟨c, before⟩, a', after, b', heq, hbefore, ha'⟩
      · obtain ⟨rfl, -⟩ := List.cons.inj heq
        rw [List.foldlM_nil, pure_eq_ok_iff] at hbefore
        exact .inl (hbefore ▸ ha')
      · obtain ⟨rfl, rfl⟩ := List.cons.inj heq
        rw [List.foldlM_cons, bind_eq_ok_iff] at hbefore
        obtain ⟨next, hnext, hbefore⟩ := hbefore
        exact .inr ⟨next, hnext, ih.mpr ⟨before, a', after, b', rfl, hbefore, ha'⟩⟩

end Attempts
end MessageSchema
