import MessageSchema.Proofs.Bundle.Renaming
import MessageSchema.Proofs.Bundle.Resolution
import Mathlib.Data.List.Perm.Basic

/-!
Resolution in other company. The order of the definitions does not matter to a lookup, and among
more definitions a name has the same candidates as before and perhaps others; so a reference may
become ambiguous there, but it never comes to mean another definition.
-/
namespace MessageSchema
namespace Bundle

variable {b b' w w' more : Bundle} {d d' d'' : Definition} {f f' f'' : Field}
  {package : Option String} {written name name' : String}

/-! Order -/

theorem fullName_congr (h : (w.map Definition.name).Perm (b.map Definition.name)) :
    w.fullName = b.fullName := by
  have names_eq (b : Bundle) (rule : LookupRule) :
      (b.candidates rule).map Definition.name = (b.map Definition.name).filter rule.admits := by
    rw [List.filter_map]
    rfl
  funext package written
  have hnames := h.filter (LookupRule.ofWritten package written).admits
  rw [← names_eq, ← names_eq] at hnames
  have hlength := hnames.length_eq
  rw [fullName, fullName]
  generalize w.candidates _ = ds at hnames hlength ⊢
  generalize b.candidates _ = es at hnames hlength ⊢
  -- Both lists are empty, or both hold one definition, or both hold more.
  rcases ds with _ | ⟨d, _ | ⟨d', ds⟩⟩ <;> rcases es with _ | ⟨e, _ | ⟨e', es⟩⟩ <;>
    simp_all

theorem resolveField_congr (h : (w.map Definition.name).Perm (b.map Definition.name)) :
    w.resolveField = b.resolveField := by
  funext package f
  rw [resolveField, fullName_congr h, resolveField]

theorem resolveDefinition_congr (h : (w.map Definition.name).Perm (b.map Definition.name)) :
    w.resolveDefinition = b.resolveDefinition := by
  funext d
  rw [resolveDefinition, resolveField_congr h, resolveDefinition]

theorem exists_resolve_iff_of_perm (h : w.Perm b) :
    (∃ b', b.resolve = .ok b') ↔ ∃ w', w.resolve = .ok w' := by
  simp only [resolve, Attempts.exists_mapM_eq_ok_iff,
    resolveDefinition_congr (h.map Definition.name), h.mem_iff]

/-! More definitions -/

theorem mem_candidates_of_subset (h : b ⊆ w) {rule : LookupRule} (hd : d ∈ b.candidates rule) :
    d ∈ w.candidates rule :=
  List.mem_filter.mpr ⟨h (List.mem_filter.mp hd).1, (List.mem_filter.mp hd).2⟩

theorem fullName_of_subset (h : b ⊆ w) (hb : b.fullName package written = .ok name)
    (hw : w.fullName package written = .ok name') : name = name' := by
  obtain ⟨d, hd, hname, -⟩ := fullName_eq_ok_iff.mp hb
  obtain ⟨e, he, hname', -⟩ := fullName_eq_ok_iff.mp hw
  have hmem : d ∈ w.candidates (.ofWritten package written) :=
    mem_candidates_of_subset h (hd ▸ List.mem_singleton_self d)
  obtain rfl : d = e := by simpa [he] using hmem
  exact Option.some.inj (hname.symm.trans hname')

theorem resolveField_of_subset (h : b ⊆ w) (hb : b.resolveField package f = .ok f')
    (hw : w.resolveField package f = .ok f'') : f' = f'' := by
  rcases resolveField_eq_ok_iff.mp hb with ⟨hsimple, rfl⟩ | ⟨hcomplex, name, hname, rfl⟩ <;>
    rcases resolveField_eq_ok_iff.mp hw with ⟨hsimple', rfl⟩ | ⟨hcomplex', name', hname', rfl⟩
  · rfl
  · simp [hsimple] at hcomplex'
  · simp [hsimple'] at hcomplex
  · rw [fullName_of_subset h hname hname']

theorem resolveDefinition_of_subset (h : b ⊆ w) (hb : b.resolveDefinition d = .ok d')
    (hw : w.resolveDefinition d = .ok d'') : d' = d'' := by
  obtain ⟨fields, hfields, rfl⟩ := resolveDefinition_eq_ok_iff.mp hb
  obtain ⟨fields', hfields', rfl⟩ := resolveDefinition_eq_ok_iff.mp hw
  have heq : fields = fields' :=
    Attempts.mapM_unique (fun _ _ _ => resolveField_of_subset h) hfields hfields'
  rw [heq]

/-- Where a definition stands in two bundles, one of which holds all of the other, it resolves to
the same in both. -/
theorem getElem?_resolve_of_subset (h : b ⊆ w) (hb : b.resolve = .ok b') (hw : w.resolve = .ok w')
    {i j : ℕ} (hij : b[i]? = w[j]?) : b'[i]? = w'[j]? := by
  have hbi := Attempts.getElem?_of_mapM_eq_ok hb i
  have hwj := Attempts.getElem?_of_mapM_eq_ok hw j
  rw [← hij] at hwj
  cases hd : b[i]? with
  | none =>
    rw [hd, Option.map_none, Option.map_eq_none_iff] at hbi hwj
    rw [hbi, hwj]
  | some d =>
    rw [hd, Option.map_some, Option.map_eq_some_iff] at hbi hwj
    obtain ⟨d', hbd, hd'⟩ := hbi
    obtain ⟨d'', hwd, hd''⟩ := hwj
    rw [hbd, hwd, resolveDefinition_of_subset h hd'.symm hd''.symm]

/-- Resolution in place among other definitions and in any order. Where a bundle resolves both by
itself and among the others, each of its definitions comes out the same wherever it stands. A mere
change of order decides nothing about success, and the outcome changes its order in the same way. -/
theorem resolveInPlace_of_perm (hperm : w.Perm (b ++ more)) :
    (∀ b' w', resolveInPlace.run b = .ok () b' → resolveInPlace.run w = .ok () w' →
      ∀ i j : ℕ, b[i]? = w[j]? → b'[i]? = w'[j]?) ∧
    (more = [] →
      ((∃ b', resolveInPlace.run b = .ok () b') ↔ ∃ w', resolveInPlace.run w = .ok () w') ∧
      ∀ b' w', resolveInPlace.run b = .ok () b' → resolveInPlace.run w = .ok () w' →
        ∀ σ : ℕ → ℕ, (∀ j, w[j]? = b[σ j]?) → ∀ j, w'[j]? = b'[σ j]?) := by
  have hsubset : b ⊆ w := fun d hd => hperm.mem_iff.mpr (List.mem_append_left more hd)
  simp only [run_resolveInPlace_eq_ok_iff]
  refine ⟨fun b' w' hb hw i j => getElem?_resolve_of_subset hsubset hb hw, ?_⟩
  rintro rfl
  rw [List.append_nil] at hperm
  refine ⟨exists_resolve_iff_of_perm hperm, fun b' w' hb hw σ hσ j => ?_⟩
  exact (getElem?_resolve_of_subset hsubset hb hw (hσ j).symm).symm

/-- A definition in a package, beside one of the same short name in another package, and all in
reverse order. -/
theorem resolveInPlace_of_perm_reversed :
    let b : Bundle :=
      [⟨some "pkg/A", [.plain "B" "x", .plain "Header" "h"]⟩, ⟨some "pkg/B", []⟩,
        ⟨some "std_msgs/Header", []⟩]
    let more : Bundle := [⟨some "other/B", [.plain "B" "y"]⟩]
    ∃ b' w', (b ++ more).reverse.Perm (b ++ more) ∧ resolveInPlace.run b = .ok () b' ∧
      resolveInPlace.run (b ++ more).reverse = .ok () w' ∧ b'[0]? = w'[3]? ∧
      b'[0]? = some ⟨some "pkg/A", [.plain "pkg/B" "x", .plain "std_msgs/Header" "h"]⟩ := by
  intro b more
  have hperm : (b ++ more).reverse.Perm (b ++ more) := List.reverse_perm _
  refine ⟨_, _, hperm, rfl, rfl, ?_, rfl⟩
  exact (resolveInPlace_of_perm hperm).1 _ _ rfl rfl 0 3 rfl

/-- Without a package to look in, one more definition of the short name is one too many. -/
example : resolve [⟨none, [.plain "B" "x"]⟩, ⟨some "pkg/B", []⟩] =
      .ok [⟨none, [.plain "pkg/B" "x"]⟩, ⟨some "pkg/B", []⟩] ∧
    resolve [⟨none, [.plain "B" "x"]⟩, ⟨some "pkg/B", []⟩, ⟨some "other/B", []⟩] =
      .error (.ambiguousType "B") :=
  ⟨rfl, rfl⟩

end Bundle
end MessageSchema
