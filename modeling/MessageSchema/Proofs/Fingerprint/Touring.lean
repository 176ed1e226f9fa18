import MessageSchema.Bundle.Tour
import MessageSchema.Proofs.Fingerprint.References
import Mathlib.Data.List.Dedup
import Mathlib.Data.List.Perm.Basic
import Mathlib.Logic.Relation

/-!
Tours come to an end. A visit puts a name on the stack that is new there and that a definition bears,
so visits are nested no deeper than there are names; and a visit that succeeds leaves the stack as it
found it, so that the visits of all members of a definition find the same stack.
-/
namespace MessageSchema
namespace Bundle

variable {b : Bundle} {e e' : Entry} {α β : Type} {outcome : Except SchemaError α}

/-! What is on the stack -/

def names (b : Bundle) : List String := (b.filterMap Definition.name).dedup

theorem mem_names {name : String} : name ∈ b.names ↔ b.lookup? name ≠ none := by
  rw [names, List.mem_dedup, List.mem_filterMap, ne_eq, lookup?_eq_none_iff]
  push Not
  rfl

inductive Deepens (b : Bundle) (e : Entry) : Entry → Prop
  | push {name : String} : b.lookup? name ≠ none → name ∉ e.stack →
      Deepens b e ⟨e.depth + 1, name :: e.stack⟩

/-- A visit begins by way of other visits, or is the one at hand. -/
abbrev LeadsDown (b : Bundle) : Entry → Entry → Prop := Relation.ReflTransGen b.Deepens

/-- No name is twice on the stack, each of them is that of a definition, and all visits but the first
one have put one there. -/
structure IsSound (b : Bundle) (e : Entry) : Prop where
  nodup : e.stack.Nodup
  defined : ∀ name ∈ e.stack, b.lookup? name ≠ none
  depth_le : e.depth ≤ e.stack.length + 1

namespace IsSound

theorem deepens (h : b.IsSound e) (hdeeper : b.Deepens e e') : b.IsSound e' := by
  cases hdeeper with
  | push hfound hnew =>
    exact {
      nodup := List.nodup_cons.mpr ⟨hnew, h.nodup⟩
      defined := List.forall_mem_cons.mpr ⟨hfound, h.defined⟩
      depth_le := Nat.succ_le_succ h.depth_le }

theorem leadsDown (h : b.IsSound e) (hdown : b.LeadsDown e e') : b.IsSound e' := by
  induction hdown with
  | refl => exact h
  | tail _ hdeeper ih => exact ih.deepens hdeeper

theorem depth_le_names (h : b.IsSound e) : e.depth ≤ b.names.length + 1 := by
  have hsubset : e.stack ⊆ b.names := fun name hname => mem_names.mpr (h.defined name hname)
  have hlength : e.stack.length ≤ b.names.length := (List.subperm_of_subset h.nodup hsubset).length_le
  have hdepth := h.depth_le
  omega

end IsSound

/-! Parts of a visit -/

theorem run_bind (x : Visit α) (f : α → Visit β) (t : Tour) :
    (x >>= f).run.run t = x.run.run t >>= fun (outcome, t') =>
      match outcome with
      | .ok a => (f a).run.run t'
      | .error error => some (.error error, t') := by
  rw [ExceptT.run_bind, StateT.run_bind]
  congr 1
  funext ⟨outcome, t'⟩
  cases outcome <;> rfl

/-- Within the visit that began so, this part comes to an end with the outcome. When it succeeds the
stack is what it was, and all visits that it makes begin further down. -/
def Performs (b : Bundle) (e : Entry) (x : Visit α) (outcome : Except SchemaError α) : Prop :=
  ∀ t : Tour, t.stack = e.stack → ∃ t', x.run.run t = some (outcome, t') ∧
    (∀ a, outcome = .ok a → t'.stack = e.stack) ∧
    ∀ e' ∈ t'.entries, e' ∈ t.entries ∨ b.LeadsDown e e'

namespace Performs

theorem pure (a : α) : b.Performs e (pure a) (.ok a) :=
  fun t ht => ⟨t, rfl, fun _ _ => ht, fun _ => .inl⟩

theorem throw (error : SchemaError) : b.Performs e (throw error : Visit α) (.error error) :=
  fun t _ => ⟨t, rfl, nofun, fun _ => .inl⟩

theorem bind {x : Visit α} {f : α → Visit β} {g : α → Except SchemaError β}
    (hx : b.Performs e x outcome) (hf : ∀ a, outcome = .ok a → b.Performs e (f a) (g a)) :
    b.Performs e (x >>= f) (outcome >>= g) := by
  intro t ht
  obtain ⟨t', hrun, hstack, hentries⟩ := hx t ht
  rw [run_bind, hrun]
  cases outcome with
  | error error => exact ⟨t', rfl, nofun, hentries⟩
  | ok a =>
    obtain ⟨t'', hrun', hstack', hentries'⟩ := hf a rfl t' (hstack a rfl)
    refine ⟨t'', hrun', hstack', fun e' he' => ?_⟩
    exact (hentries' e' he').elim (hentries e') .inr

theorem map {x : Visit α} (hx : b.Performs e x outcome) (f : α → β) :
    b.Performs e (do return f (← x)) (outcome.map f) := by
  have hbind := hx.bind (f := fun a => Pure.pure (f a)) (g := fun a => .ok (f a)) fun a _ =>
    Performs.pure (f a)
  cases outcome <;> exact hbind

theorem get {f : Tour → Visit α} (hf : ∀ t, t.stack = e.stack → b.Performs e (f t) outcome) :
    b.Performs e (MonadState.get >>= f) outcome :=
  fun t ht => hf t ht t ht

theorem enter (b : Bundle) (e : Entry) : b.Performs e (Visit.enter e.depth) (.ok ()) := by
  intro t ht
  refine ⟨{ t with entries := t.entries ++ [⟨e.depth, t.stack⟩] }, rfl, fun _ _ => ht, ?_⟩
  intro e' he'
  rcases List.mem_append.mp he' with he' | he'
  · exact .inl he'
  · rw [List.mem_singleton.mp he', ht]
    exact .inr .refl

theorem mapM {fs : List β} {x : β → Visit α} {y : β → Except SchemaError α}
    (h : ∀ f ∈ fs, b.Performs e (x f) (y f)) : b.Performs e (fs.mapM x) (fs.mapM y) := by
  induction fs with
  | nil => exact Performs.pure []
  | cons f fs ih =>
    rw [List.forall_mem_cons] at h
    rw [List.mapM_cons, List.mapM_cons]
    exact h.1.bind fun a _ => (ih h.2).bind fun as _ => Performs.pure (a :: as)

/-- A visit in between takes its own name off the stack when it succeeds. -/
theorem descend {name : String} {x : Visit α} (hfound : b.lookup? name ≠ none)
    (hnew : name ∉ e.stack) (hx : b.Performs ⟨e.depth + 1, name :: e.stack⟩ x outcome) (f : α → β) :
    b.Performs e (do Visit.push name; let a ← x; Visit.pop; return f a) (outcome.map f) := by
  intro t ht
  obtain ⟨t', hrun, hstack, hentries⟩ := hx { t with stack := name :: t.stack } (by rw [ht])
  have hdown {e' : Entry} (he' : e' ∈ t'.entries) : e' ∈ t.entries ∨ b.LeadsDown e e' :=
    (hentries e' he').imp_right fun hdown => .head (.push hfound hnew) hdown
  have hpush : (Visit.push name).run.run t = some (.ok (), { t with stack := name :: t.stack }) := rfl
  rw [run_bind, hpush]
  simp only [Option.bind_eq_bind, Option.bind_some]
  rw [run_bind, hrun]
  cases outcome with
  | error error => exact ⟨t', rfl, nofun, fun _ => hdown⟩
  | ok a =>
    refine ⟨{ t' with stack := t'.stack.tail }, rfl, fun _ _ => ?_, fun _ => hdown⟩
    rw [hstack a rfl]
    rfl

end Performs

/-! Visits -/

theorem performs_visitMember {f : Field}
    (hdeeper : ∀ target, b.lookup? f.typeName = some target → f.typeName ∉ e.stack →
      b.Performs ⟨e.depth + 1, f.typeName :: e.stack⟩ (b.visit (e.depth + 1) target)
        (b.digest (f.typeName :: e.stack) target)) :
    b.Performs e (b.visitMember e.depth f) (b.signature e.stack f) := by
  unfold visitMember signature
  by_cases hbuiltin : TypeName.isBuiltin f.typeName = true
  · rw [if_pos hbuiltin, if_pos hbuiltin]
    exact .pure _
  rw [if_neg hbuiltin, if_neg hbuiltin]
  cases hfound : b.lookup? f.typeName with
  | none => exact .throw _
  | some target =>
    refine .get fun t ht => ?_
    rw [ht]
    by_cases hmem : f.typeName ∈ e.stack
    · simp only [if_pos hmem]
      exact .throw _
    · simp only [if_neg hmem]
      exact (hdeeper target hfound hmem).descend (by simp [hfound]) hmem f.complexSignature

/-- A visit performs the digest. -/
theorem performs_visit (b : Bundle) (depth : ℕ) (stack : List String) (d : Definition) :
    b.Performs ⟨depth, stack⟩ (b.visit depth d) (b.digest stack d) := by
  -- The recursion of the digest has an end, and the visit keeps pace with it.
  induction stack, d using Bundle.digest.induct b generalizing depth with
  | case1 stack d ih =>
    rw [visit_eq, digest_eq]
    have hlines : b.Performs ⟨depth, stack⟩ (d.members.mapM (b.visitMember depth))
        (d.members.mapM (b.signature stack)) :=
      .mapM fun f _ => performs_visitMember fun target hfound hnew => ih f target hfound hnew (depth + 1)
    exact (Performs.enter b ⟨depth, stack⟩).bind fun _ _ => hlines.map _

/-! Tours -/

theorem exists_run_of_performs {x : Visit α} (h : b.Performs e x outcome) (hsound : b.IsSound e) :
    ∃ t, x.run.run ⟨e.stack, []⟩ = some (outcome, t) ∧ ∀ e' ∈ t.entries, b.IsSound e' := by
  obtain ⟨t, hrun, -, hentries⟩ := h ⟨e.stack, []⟩ rfl
  refine ⟨t, hrun, fun e' he' => ?_⟩
  rcases hentries e' he' with hold | hdown
  · exact absurd hold List.not_mem_nil
  · exact hsound.leadsDown hdown

theorem exists_run_tour (b : Bundle) :
    ∃ t, b.tour.run.run .start = some (b.fingerprint, t) ∧ ∀ e ∈ t.entries, b.IsSound e := by
  cases b with
  | nil => exact ⟨.start, rfl, fun _ he => absurd he List.not_mem_nil⟩
  | cons root others =>
    have hroot := (performs_visit (root :: others) 1 [] root).map String.ofList
    exact exists_run_of_performs hroot ⟨List.nodup_nil, nofun, le_rfl⟩

theorem exists_run_tourOf (b : Bundle) (name : String) :
    ∃ t, (b.tourOf name).run.run .start = some (b.fingerprintOf name, t) ∧
      ∀ e ∈ t.entries, b.IsSound e := by
  unfold tourOf fingerprintOf
  cases b with
  | nil => exact ⟨.start, rfl, fun _ he => absurd he List.not_mem_nil⟩
  | cons root others =>
    cases hfound : lookup? (root :: others) name with
    | none => exact ⟨.start, rfl, fun _ he => absurd he List.not_mem_nil⟩
    | some d =>
      have hvisit := (performs_visit (root :: others) 1 [name] d).map String.ofList
      have hsound : IsSound (root :: others) ⟨1, [name]⟩ :=
        ⟨List.nodup_singleton name, by simp [hfound], Nat.le_succ 1⟩
      exact exists_run_of_performs hvisit hsound

/-- A visit begins on a stack without repetitions, of names that are defined, and is nested no deeper
than one level more than there are names. -/
structure IsBounded (b : Bundle) (e : Entry) : Prop where
  nodup : e.stack.Nodup
  defined : ∀ name ∈ e.stack, b.lookup? name ≠ none
  depth_le : e.depth ≤ b.names.length + 1

theorem IsSound.isBounded (h : b.IsSound e) : b.IsBounded e :=
  ⟨h.nodup, h.defined, h.depth_le_names⟩

/-- Tours end, on cyclic bundles too, with the fingerprint of the root or of a name, and all visits on
the way are bounded. Whatever is on the stack, a visit ends, and it leaves the stack as it found it
when it succeeds. -/
theorem tours_end (b : Bundle) :
    (∃ t, b.tour.run.run .start = some (b.fingerprint, t) ∧ ∀ e ∈ t.entries, b.IsBounded e) ∧
      (∀ name, ∃ t, (b.tourOf name).run.run .start = some (b.fingerprintOf name, t) ∧
        ∀ e ∈ t.entries, b.IsBounded e) ∧
      ∀ depth d t, ∃ outcome t', (b.visit depth d).run.run t = some (outcome, t') ∧
        ∀ digest, outcome = .ok digest → t'.stack = t.stack := by
  refine ⟨?_, fun name => ?_, fun depth d t => ?_⟩
  · obtain ⟨t, hrun, hentries⟩ := exists_run_tour b
    exact ⟨t, hrun, fun e he => (hentries e he).isBounded⟩
  · obtain ⟨t, hrun, hentries⟩ := exists_run_tourOf b name
    exact ⟨t, hrun, fun e he => (hentries e he).isBounded⟩
  · obtain ⟨t', hrun, hstack, -⟩ := performs_visit b depth t.stack d t rfl
    exact ⟨_, t', hrun, hstack⟩

/-- A definition with a reference and nothing else is visited by way of the definition of its type. -/
theorem exists_run_visit_of_reference {f : Field} {target : Definition} {name : Option String}
    {depth : ℕ} {t : Tour} {digest : List Char} {entries : List Entry}
    (hmember : f.isConstant = false) (hcomplex : TypeName.isBuiltin f.typeName = false)
    (hfound : b.lookup? f.typeName = some target) (hnew : f.typeName ∉ t.stack)
    (hdeeper : (b.visit (depth + 1) target).run.run
        ⟨f.typeName :: t.stack, t.entries ++ [⟨depth, t.stack⟩]⟩ =
      some (.ok digest, ⟨f.typeName :: t.stack, entries⟩)) :
    ∃ outer, (b.visit depth ⟨name, [f]⟩).run.run t = some (.ok outer, ⟨t.stack, entries⟩) := by
  have henter : (Visit.enter depth).run.run t =
      some (.ok (), ⟨t.stack, t.entries ++ [⟨depth, t.stack⟩]⟩) := rfl
  have hmembers : (Definition.mk name [f]).members = [f] := by simp [Definition.members, hmember]
  have hget (t : Tour) : (MonadState.get : Visit Tour).run.run t = some (.ok t, t) := rfl
  have hpush (t : Tour) : (Visit.push f.typeName).run.run t =
      some (.ok (), ⟨f.typeName :: t.stack, t.entries⟩) := rfl
  rw [visit_eq, run_bind, henter]
  simp only [Option.bind_eq_bind, Option.bind_some, hmembers, List.mapM_cons, List.mapM_nil,
    visitMember, hcomplex, Bool.false_eq_true, if_false, hfound, run_bind, hget, if_neg hnew, hpush,
    hdeeper]
  exact ⟨_, rfl⟩

/-- Visits below one another: the root refers to a definition that refers to a third one. In the same
bundle the visit of a definition that refers to itself begins with its name on the stack and fails. -/
theorem tours_end_on_chain_and_loop :
    let loop : Definition := ⟨some "p/C", [.plain "p/C" "next"]⟩
    let leaf : Definition := ⟨some "p/B", [.plain "int32" "x"]⟩
    let middle : Definition := ⟨some "p/A", [.plain "p/B" "b"]⟩
    let b : Bundle := [⟨none, [.plain "p/A" "a"]⟩, middle, leaf, loop]
    (∃ fingerprint t, b.tour.run.run .start = some (.ok fingerprint, t) ∧
      t.entries = [⟨1, []⟩, ⟨2, ["p/A"]⟩, ⟨3, ["p/B", "p/A"]⟩] ∧
      b.IsBounded ⟨2, ["p/A"]⟩ ∧ b.IsBounded ⟨3, ["p/B", "p/A"]⟩) ∧
    (∃ t, (b.tourOf "p/C").run.run .start = some (.error (.cyclicType "p/C"), t) ∧
      ⟨1, ["p/C"]⟩ ∈ t.entries ∧ b.IsBounded ⟨1, ["p/C"]⟩) ∧
    ∃ digest t, (b.visit 2 middle).run.run ⟨["p/A"], []⟩ = some (.ok digest, t) ∧
      t.entries = [⟨2, ["p/A"]⟩, ⟨3, ["p/B", "p/A"]⟩] ∧ t.stack = ["p/A"] := by
  intro loop leaf middle b
  have hleaf (t : Tour) : ∃ digest, (b.visit 3 leaf).run.run t =
      some (.ok digest, ⟨t.stack, t.entries ++ [⟨3, t.stack⟩]⟩) := by
    rw [visit_eq]
    exact ⟨_, rfl⟩
  have hmiddle (entries : List Entry) : ∃ digest, (b.visit 2 middle).run.run ⟨["p/A"], entries⟩ =
      some (.ok digest, ⟨["p/A"], entries ++ [⟨2, ["p/A"]⟩] ++ [⟨3, ["p/B", "p/A"]⟩]⟩) := by
    obtain ⟨digest, hdigest⟩ := hleaf ⟨["p/B", "p/A"], entries ++ [⟨2, ["p/A"]⟩]⟩
    have hnew : "p/B" ∉ ["p/A"] := by decide
    exact exists_run_visit_of_reference rfl (by decide) rfl hnew hdigest
  have hroot : ∃ fingerprint, b.tour.run.run .start = some (.ok fingerprint,
      ⟨[], [⟨1, []⟩, ⟨2, ["p/A"]⟩, ⟨3, ["p/B", "p/A"]⟩]⟩) := by
    obtain ⟨digest, hdigest⟩ := hmiddle [⟨1, []⟩]
    obtain ⟨outer, houter⟩ : ∃ outer, (b.visit 1 ⟨none, [.plain "p/A" "a"]⟩).run.run .start =
        some (.ok outer, ⟨[], [⟨1, []⟩, ⟨2, ["p/A"]⟩, ⟨3, ["p/B", "p/A"]⟩]⟩) :=
      exists_run_visit_of_reference rfl (by decide) rfl List.not_mem_nil hdigest
    rw [tour, run_bind, houter]
    exact ⟨_, rfl⟩
  have hloop : (b.tourOf "p/C").run.run .start =
      some (.error (.cyclicType "p/C"), ⟨["p/C"], [⟨1, ["p/C"]⟩]⟩) := by
    have hfound : b.lookup? "p/C" = some loop := rfl
    rw [tourOf.eq_def]
    simp only [b, hfound]
    rw [visit_eq]
    rfl
  obtain ⟨⟨t, htour, hbounded⟩, htours, hvisits⟩ := tours_end b
  obtain ⟨fingerprint, hroot⟩ := hroot
  obtain ⟨-, rfl⟩ := Prod.mk.inj (Option.some.inj (htour.symm.trans hroot))
  obtain ⟨t', htour', hbounded'⟩ := htours "p/C"
  obtain ⟨-, rfl⟩ := Prod.mk.inj (Option.some.inj (htour'.symm.trans hloop))
  obtain ⟨digest, hdigest⟩ := hmiddle []
  obtain ⟨outcome, t'', hvisit, hstack⟩ := hvisits 2 middle ⟨["p/A"], []⟩
  obtain ⟨rfl, rfl⟩ := Prod.mk.inj (Option.some.inj (hvisit.symm.trans hdigest))
  exact ⟨⟨fingerprint, _, hroot, rfl, hbounded _ (by simp), hbounded _ (by simp)⟩,
    ⟨_, hloop, by simp, hbounded' _ (by simp)⟩, digest, _, hdigest, rfl, hstack digest rfl⟩

end Bundle
end MessageSchema
