import MessageSchema.Bundle.Fingerprint
import MessageSchema.Proofs.Bundle.Resolution

/-!
References between definitions. A definition refers to others by the types of its members, and
reaches whatever those reach; the fingerprint of a definition depends on all that it reaches.
-/
namespace MessageSchema

/-- The types of the members, the built-in ones apart. -/
def Definition.references (d : Definition) : List String :=
  (d.members.map Field.typeName).filter fun t => !TypeName.isBuiltin t

namespace Definition

variable {d : Definition} {t : String}

theorem mem_references :
    t ∈ d.references ↔ ∃ f ∈ d.members, f.typeName = t ∧ TypeName.isBuiltin t = false := by
  simp only [references, List.mem_filter, List.mem_map, Bool.not_eq_true', ← exists_and_right,
    and_assoc]

theorem typeName_mem_references {f : Field} (hf : f ∈ d.members)
    (hbuiltin : TypeName.isBuiltin f.typeName = false) : f.typeName ∈ d.references :=
  mem_references.mpr ⟨f, hf, rfl, hbuiltin⟩

end Definition

namespace Bundle

variable {b : Bundle} {d e : Definition} {t u : String}

@[simp] theorem lookup?_nil (t : String) : lookup? [] t = none := rfl

theorem lookup?_append (b b' : Bundle) (t : String) :
    lookup? (b ++ b') t = (lookup? b' t).or (lookup? b t) := by
  simp [lookup?, List.findRev?_eq_find?_reverse, List.find?_append]

theorem lookup?_cons (d : Definition) (b : Bundle) (t : String) :
    lookup? (d :: b) t = (lookup? b t).or (if d.name = some t then some d else none) := by
  have hsingle : lookup? [d] t = if d.name = some t then some d else none := by
    by_cases h : d.name = some t <;> simp [lookup?, List.findRev?_eq_find?_reverse, h]
  rw [← hsingle]
  exact lookup?_append [d] b t

theorem lookup?_eq_none_iff : b.lookup? t = none ↔ ∀ d ∈ b, d.name ≠ some t := by
  simp [lookup?, List.findRev?_eq_find?_reverse]

/-- The definition of a name is the last one that bears it. -/
theorem lookup?_eq_some_iff : b.lookup? t = some d ↔
    d.name = some t ∧ ∃ before after, b = before ++ d :: after ∧ ∀ e ∈ after, e.name ≠ some t := by
  rw [lookup?, List.findRev?_eq_find?_reverse, List.find?_eq_some_iff_append, beq_iff_eq]
  refine and_congr_right fun _ => ?_
  constructor
  · rintro ⟨after, before, heq, hafter⟩
    refine ⟨before.reverse, after.reverse, ?_, fun e he => ?_⟩
    · simpa using congrArg List.reverse heq
    · simpa using hafter e (List.mem_reverse.mp he)
  · rintro ⟨before, after, rfl, hafter⟩
    refine ⟨after.reverse, before.reverse, by simp, fun e he => ?_⟩
    simpa using hafter e (List.mem_reverse.mp he)

inductive Reaches (b : Bundle) : Definition → String → Prop
  | direct {d : Definition} {t : String} : t ∈ d.references → Reaches b d t
  | through {d e : Definition} {t u : String} :
    t ∈ d.references → b.lookup? t = some e → Reaches b e u → Reaches b d u

theorem Reaches.trans (h : b.Reaches d t) (hfound : b.lookup? t = some e) (h' : b.Reaches e u) :
    b.Reaches d u := by
  induction h with
  | direct hmem => exact .through hmem hfound h'
  | through hmem hnext _ ih => exact .through hmem hnext (ih hfound)

/-- The definition itself or that of a type that it reaches. -/
def Involves (b : Bundle) (d e : Definition) : Prop :=
  e = d ∨ ∃ t, b.Reaches d t ∧ b.lookup? t = some e

theorem Involves.refl (b : Bundle) (d : Definition) : b.Involves d d := .inl rfl

theorem Involves.lookup (h : b.Involves d e) {e' : Definition} (hmem : t ∈ e.references)
    (hfound : b.lookup? t = some e') : b.Involves d e' := by
  rcases h with rfl | ⟨u, hreach, hname⟩
  · exact .inr ⟨t, .direct hmem, hfound⟩
  · exact .inr ⟨t, hreach.trans hname (.direct hmem), hfound⟩

theorem Involves.reaches (h : b.Involves d e) (hmem : t ∈ e.references) : b.Reaches d t := by
  rcases h with rfl | ⟨u, hreach, hname⟩
  · exact .direct hmem
  · exact hreach.trans hname (.direct hmem)

theorem exists_reference (hreach : b.Reaches d t) : ∃ e, b.Involves d e ∧ t ∈ e.references := by
  induction hreach with
  | direct hmem => exact ⟨_, Involves.refl b _, hmem⟩
  | through hmem hfound _ ih =>
    obtain ⟨e, hinvolved, hreference⟩ := ih
    rcases hinvolved with rfl | ⟨u, hreach, hname⟩
    · exact ⟨_, .inr ⟨_, .direct hmem, hfound⟩, hreference⟩
    · exact ⟨e, .inr ⟨u, .through hmem hfound hreach, hname⟩, hreference⟩

theorem mem_of_involves (hd : d ∈ b) (h : b.Involves d e) : e ∈ b := by
  rcases h with rfl | ⟨t, -, hfound⟩
  · exact hd
  · exact (mem_of_lookup? hfound).1

theorem lookup?_of_bearers (hbearers : b.bearers t = 1) (hd : d ∈ b) (hname : d.name = some t) :
    b.lookup? t = some d := by
  cases hfound : b.lookup? t with
  | none => exact absurd hname (lookup?_eq_none_iff.mp hfound d hd)
  | some e =>
    obtain ⟨he, hbears⟩ := mem_of_lookup? hfound
    rw [eq_of_bearers_eq_one hbearers hd hname he hbears]

theorem bearers_of_mem_references (hmarked : d.IsMarked) (hbound : d.IsBound b)
    (hmem : t ∈ d.references) : b.bearers t = 1 := by
  obtain ⟨f, hf, rfl, hbuiltin⟩ := Definition.mem_references.mp hmem
  have hfield := (List.mem_filter.mp hf).1
  exact hbound f hfield (by rw [hmarked f hfield, hbuiltin]; rfl)

def IsClosed (b : Bundle) (d : Definition) : Prop := ∀ t, b.Reaches d t → b.lookup? t ≠ none

def IsRecursive (b : Bundle) (t : String) : Prop := ∃ e, b.lookup? t = some e ∧ b.Reaches e t

def IsAcyclic (b : Bundle) (d : Definition) : Prop := ∀ t, b.Reaches d t → ¬ b.IsRecursive t

end Bundle
end MessageSchema
