import MessageSchema.Definition
import Mathlib.Data.List.Basic

/-!
Repeated definitions. Equality of fields compares floats as numbers, so it is not equality of
values in general; it is for fields without literals, which are all that reading gives.
-/
namespace MessageSchema

namespace Field

variable {f g : Field}

structure IsLiteralFree (f : Field) : Prop where
  value : f.value = none
  defaultValue : f.defaultValue = none

theorem beq_eq (f g : Field) :
    (f == g) = (f.typeName == g.typeName && (f.name == g.name && (f.isComplex == g.isComplex &&
      (f.isArray == g.isArray && (f.arrayLength == g.arrayLength &&
      (f.isConstant == g.isConstant && (f.value == g.value && (f.valueText == g.valueText &&
      (f.upperBound == g.upperBound && (f.arrayUpperBound == g.arrayUpperBound &&
      f.defaultValue == g.defaultValue)))))))))) := by
  cases f
  cases g
  rfl

theorem beq_iff_eq (hf : f.IsLiteralFree) (hg : g.IsLiteralFree) : (f == g) = true ↔ f = g := by
  obtain ⟨hvalue, hdefault⟩ := hf
  obtain ⟨hvalue', hdefault'⟩ := hg
  rw [beq_eq, hvalue, hvalue', hdefault, hdefault']
  cases f
  cases g
  simp only at hvalue hdefault hvalue' hdefault'
  subst hvalue hdefault hvalue' hdefault'
  have hnone : ((none : Option Literal) == none) = true := rfl
  simp [hnone]

end Field

namespace Definition

variable {d e : Definition}

def IsLiteralFree (d : Definition) : Prop := ∀ f ∈ d.fields, f.IsLiteralFree

theorem beq_eq (d e : Definition) : (d == e) = (d.name == e.name && d.fields == e.fields) := by
  cases d
  cases e
  rfl

theorem fields_beq_iff_eq {fs gs : List Field} (hf : ∀ f ∈ fs, f.IsLiteralFree)
    (hg : ∀ g ∈ gs, g.IsLiteralFree) : (fs == gs) = true ↔ fs = gs := by
  induction fs generalizing gs with
  | nil => cases gs <;> simp
  | cons f fs ih =>
    cases gs with
    | nil => simp
    | cons g gs =>
      rw [List.forall_mem_cons] at hf hg
      rw [List.cons_beq_cons, Bool.and_eq_true, Field.beq_iff_eq hf.1 hg.1, ih hf.2 hg.2,
        List.cons.injEq]

theorem beq_iff_eq (hd : d.IsLiteralFree) (he : e.IsLiteralFree) : (d == e) = true ↔ d = e := by
  rw [beq_eq, Bool.and_eq_true, fields_beq_iff_eq hd he]
  cases d
  cases e
  simp

end Definition

namespace Bundle

/-- No definition is equal to an earlier one. -/
def IsDistinct (b : Bundle) : Prop := b.Pairwise fun d e => (e == d) = false

theorem eraseDups_sublist (b : Bundle) : b.eraseDups.Sublist b := by
  match b with
  | [] => exact List.Sublist.refl _
  | d :: ds =>
    have hlen := List.length_filter_le (fun e => !e == d) ds
    rw [List.eraseDups_cons]
    exact ((eraseDups_sublist _).trans List.filter_sublist).cons_cons d
termination_by b.length

theorem mem_eraseDups {b : Bundle} (h : ∀ d ∈ b, d.IsLiteralFree) {d : Definition} :
    d ∈ b.eraseDups ↔ d ∈ b := by
  refine ⟨fun hd => (eraseDups_sublist b).subset hd, fun hd => ?_⟩
  match b with
  | [] => exact absurd hd List.not_mem_nil
  | first :: ds =>
    rw [List.eraseDups_cons]
    rw [List.forall_mem_cons] at h
    by_cases heq : d = first
    · exact heq ▸ List.mem_cons_self
    · have hmem : d ∈ ds := (List.mem_cons.mp hd).resolve_left heq
      have hne : (!d == first) = true := by
        rw [Bool.not_eq_true', ← Bool.not_eq_true, Definition.beq_iff_eq (h.2 d hmem) h.1]
        exact heq
      have hlen := List.length_filter_le (fun e => !e == first) ds
      have hrest : d ∈ (ds.filter fun e => !e == first).eraseDups :=
        (mem_eraseDups fun e he => h.2 e (List.mem_filter.mp he).1).mpr
          (List.mem_filter.mpr ⟨hmem, hne⟩)
      exact List.mem_cons_of_mem first hrest
termination_by b.length

theorem eraseDups_eq_self_iff {b : Bundle} : b.eraseDups = b ↔ b.IsDistinct := by
  induction b with
  | nil => simp [IsDistinct]
  | cons d ds ih =>
    rw [List.eraseDups_cons, List.cons_inj_right, IsDistinct, List.pairwise_cons]
    constructor
    · intro h
      have hle := (eraseDups_sublist (ds.filter fun e => !e == d)).length_le
      rw [h] at hle
      have hfilter : (ds.filter fun e => !e == d) = ds := List.filter_sublist.eq_of_length_le hle
      rw [hfilter] at h
      exact ⟨by simpa using List.filter_eq_self.mp hfilter, ih.mp h⟩
    · rintro ⟨hfirst, hrest⟩
      have hfilter : (ds.filter fun e => !e == d) = ds := by
        rw [List.filter_eq_self]
        simpa using hfirst
      rw [hfilter]
      exact ih.mpr hrest

theorem isDistinct_eraseDups (b : Bundle) : IsDistinct b.eraseDups := by
  match b with
  | [] => exact List.Pairwise.nil
  | first :: ds =>
    have hlen := List.length_filter_le (fun e => !e == first) ds
    rw [List.eraseDups_cons, IsDistinct, List.pairwise_cons]
    refine ⟨fun e he => ?_, isDistinct_eraseDups _⟩
    have hmem := (eraseDups_sublist _).subset he
    simpa using (List.mem_filter.mp hmem).2
termination_by b.length

theorem eraseDups_filter {b : Bundle} (h : ∀ d ∈ b, d.IsLiteralFree) (p : Definition → Bool) :
    (b.filter p).eraseDups = b.eraseDups.filter p := by
  match b with
  | [] => rfl
  | first :: ds =>
    rw [List.forall_mem_cons] at h
    have hlen := List.length_filter_le (fun e => !e == first) ds
    have hrest := eraseDups_filter (b := ds.filter fun e => !e == first)
      (fun e he => h.2 e (List.mem_filter.mp he).1) p
    by_cases hfirst : p first = true
    · have hswap : (ds.filter p).filter (fun e => !e == first) =
          (ds.filter fun e => !e == first).filter p := by
        rw [List.filter_filter, List.filter_filter]
        exact List.filter_congr fun e _ => Bool.and_comm ..
      rw [List.filter_cons_of_pos hfirst, List.eraseDups_cons, hswap, hrest, List.eraseDups_cons,
        List.filter_cons_of_pos hfirst]
    · have hskip : (ds.filter fun e => !e == first).filter p = ds.filter p := by
        rw [List.filter_filter]
        refine List.filter_congr fun e he => ?_
        by_cases heq : (e == first) = true
        · obtain rfl := (Definition.beq_iff_eq (h.2 e he) h.1).mp heq
          simp [hfirst]
        · simp [heq]
      rw [List.filter_cons_of_neg hfirst, ← hskip, hrest, List.eraseDups_cons,
        List.filter_cons_of_neg hfirst]
termination_by b.length

open Classical in
theorem eraseDups_append {b c : Bundle} (hb : ∀ d ∈ b, d.IsLiteralFree)
    (hc : ∀ d ∈ c, d.IsLiteralFree) :
    (b ++ c).eraseDups = b.eraseDups ++ c.eraseDups.filter fun d => d ∉ b.eraseDups := by
  match b with
  | [] => simp
  | first :: ds =>
    rw [List.forall_mem_cons] at hb
    have hlen := List.length_filter_le (fun e => !e == first) ds
    have hrest := eraseDups_append (b := ds.filter fun e => !e == first)
      (c := c.filter fun e => !e == first) (fun e he => hb.2 e (List.mem_filter.mp he).1)
      (fun e he => hc e (List.mem_filter.mp he).1)
    rw [List.cons_append, List.eraseDups_cons, List.filter_append, hrest, eraseDups_filter hc,
      List.filter_filter, List.eraseDups_cons, List.cons_append]
    refine congrArg _ (congrArg _ (List.filter_congr fun e he => ?_))
    have hfree := hc e ((eraseDups_sublist c).subset he)
    have hne : (!e == first) = true ↔ e ≠ first := by
      rw [Bool.not_eq_true', ← Bool.not_eq_true, Definition.beq_iff_eq hfree hb.1]
    rw [Bool.eq_iff_iff, Bool.and_eq_true, hne]
    simp [and_comm]
termination_by b.length

theorem isDistinct_iff_nodup {b : Bundle} (h : ∀ d ∈ b, d.IsLiteralFree) :
    b.IsDistinct ↔ b.Nodup := by
  rw [IsDistinct, List.Nodup]
  apply List.Pairwise.iff_of_mem
  intro d e hd he
  rw [ne_comm, ← Bool.not_eq_true, ne_eq, Definition.beq_iff_eq (h e he) (h d hd)]

end Bundle
end MessageSchema
