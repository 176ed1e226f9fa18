import MessageSchema.Proofs.Bundle.Candidates
import MessageSchema.Proofs.Bundle.Parsed
import MessageSchema.Proofs.Fingerprint.Structure

/-!
Resolution and hashing look up names in different ways: resolution takes the only candidate for a
written name, hashing the last definition of a full one. In a resolved bundle both lead to the same
definition, so no fingerprint misses a type.
-/
namespace MessageSchema
namespace Bundle

variable {b b' : Bundle} {d e : Definition} {written name : String}

/-- Of all definitions, the type only may mean the one at the position. -/
def MeansAt (b : Bundle) (d : Definition) (written : String) (position : Nat) : Prop :=
  position < b.length ∧ ∀ i e, b[i]? = some e → (d.MayMean written e ↔ i = position)

theorem Means.exists_position (h : b.Means d written e) :
    ∃ position, b.MeansAt d written position ∧ b[position]? = some e := by
  obtain ⟨he, before, after, rfl, hothers⟩ := h
  refine ⟨before.length, ⟨by simp, fun i other hother => ?_⟩, by simp⟩
  rcases Nat.lt_trichotomy i before.length with hlt | rfl | hgt
  · rw [List.getElem?_append_left hlt] at hother
    have hmem : other ∈ before ++ after := List.mem_append_left _ (List.mem_of_getElem? hother)
    exact iff_of_false (hothers other hmem) (by omega)
  · obtain rfl : e = other := by simpa using hother
    exact iff_of_true he rfl
  · obtain ⟨k, rfl⟩ := Nat.exists_eq_add_of_lt hgt
    rw [List.getElem?_append_right (by omega)] at hother
    have hafter : after[k]? = some other := by
      simpa [show before.length + k + 1 - before.length = k + 1 by omega] using hother
    have hmem : other ∈ before ++ after := List.mem_append_right _ (List.mem_of_getElem? hafter)
    exact iff_of_false (hothers other hmem) (by omega)

/-- The definition that a type meant is the one that is looked up when its name has taken the place
of the type. -/
theorem Names.exists_target (h : b.Names d written name) (hresolve : b.resolve = .ok b') :
    ∃ position target, b.MeansAt d written position ∧ b'[position]? = some target ∧
      b'.lookup? name = some target := by
  have hbearers := (fullName_spec (fullName_eq_ok_iff_names.mpr h)).2
  rw [← bearers_resolve hresolve] at hbearers
  obtain ⟨e, hmeans, hname, -⟩ := h
  obtain ⟨position, hat, he⟩ := hmeans.exists_position
  have hnames : b'[position]?.map Definition.name = some (some name) := by
    rw [← List.getElem?_map, map_name_resolve hresolve, List.getElem?_map, he, Option.map_some,
      hname]
  obtain ⟨target, htarget, hbears⟩ := Option.map_eq_some_iff.mp hnames
  exact ⟨position, target, hat, htarget,
    lookup?_of_bearers hbearers (List.mem_of_getElem? htarget) hbears⟩

theorem isClosed_of_isBound (hmarked : ∀ d ∈ b, d.IsMarked) (hbound : ∀ d ∈ b, d.IsBound b)
    (hd : d ∈ b) : b.IsClosed d := by
  intro t hreach
  obtain ⟨e, hinvolved, hreference⟩ := exists_reference hreach
  have he := mem_of_involves hd hinvolved
  have hbearers := bearers_of_mem_references (hmarked e he) (hbound e he) hreference
  obtain ⟨target, htarget, hname⟩ := exists_of_bearers_eq_one hbearers
  simp [lookup?_of_bearers hbearers htarget hname]

/-- There is a fingerprint, or else a type that is defined in terms of itself. -/
def IsFoundOrCyclic (outcome : Except SchemaError String) : Prop :=
  (∃ h, outcome = .ok h) ∨ ∃ t, outcome = .error (.cyclicType t)

theorem isFoundOrCyclic_digest (hclosed : b.IsClosed d) (trail : List String) :
    IsFoundOrCyclic ((b.digest trail d).map String.ofList) := by
  cases hdigest : b.digest trail d with
  | ok digest => exact .inl ⟨_, rfl⟩
  | error error =>
    obtain ⟨t, hreach, ⟨hmissing, -⟩ | ⟨-, rfl⟩⟩ := exists_of_digest_eq_error hdigest
    · exact absurd hmissing (hclosed t hreach)
    · exact .inr ⟨t, rfl⟩

theorem isFoundOrCyclic_fingerprint (hne : b ≠ []) (hclosed : ∀ d ∈ b, b.IsClosed d) :
    IsFoundOrCyclic b.fingerprint := by
  obtain ⟨root, others, rfl⟩ := List.exists_cons_of_ne_nil hne
  exact isFoundOrCyclic_digest (hclosed root List.mem_cons_self) []

theorem isFoundOrCyclic_fingerprintOf (hclosed : ∀ d ∈ b, b.IsClosed d) (hd : d ∈ b)
    (hname : d.name = some name) : IsFoundOrCyclic (b.fingerprintOf name) := by
  obtain ⟨root, others, rfl⟩ := List.exists_cons_of_ne_nil (List.ne_nil_of_mem hd)
  rw [fingerprintOf]
  cases hfound : lookup? (root :: others) name with
  | none => exact absurd hname (lookup?_eq_none_iff.mp hfound d hd)
  | some e => exact isFoundOrCyclic_digest (hclosed e (mem_of_lookup? hfound).1) [name]

/-- What hashing finds in a bundle that has been resolved. The complex fields are those whose types
it looks up; each of those types is the name of one definition, the one that stands where the
resolver found it. So no type is missing. -/
structure Agrees (b b' : Bundle) : Prop where
  marked : ∀ d ∈ b', d.IsMarked
  bearers : ∀ d ∈ b', ∀ f ∈ d.fields, f.isComplex = true → b'.bearers f.typeName = 1
  target : List.Forall₂ (fun d d' => List.Forall₂ (fun f f' => f.isComplex = true →
      ∃ position target, b.MeansAt d f.typeName position ∧ b'[position]? = some target ∧
        b'.lookup? f'.typeName = some target) d.fields d'.fields) b b'
  fingerprint : b' ≠ [] → IsFoundOrCyclic b'.fingerprint
  fingerprintOf : ∀ d ∈ b', ∀ name, d.name = some name → IsFoundOrCyclic (b'.fingerprintOf name)

theorem agrees_of_resolve (hmarked : ∀ d ∈ b, d.IsMarked) (h : b.resolve = .ok b') :
    b.Agrees b' := by
  have hmarked' := isMarked_of_resolve hmarked h
  have hbound : ∀ d ∈ b', d.IsBound b' := fun d hd => (isQualified_of_resolve h d hd).2
  have hclosed : ∀ d ∈ b', b'.IsClosed d := fun d hd => isClosed_of_isBound hmarked' hbound hd
  refine ⟨hmarked', hbound, ?_, fun hne => isFoundOrCyclic_fingerprint hne hclosed,
    fun d hd name hname => isFoundOrCyclic_fingerprintOf hclosed hd hname⟩
  refine (resolve_eq_ok_iff.mp h).imp fun d d' hd => hd.2.imp fun f f' hf hcomplex => ?_
  rw [IsRenamed, if_pos hcomplex] at hf
  obtain ⟨name, hnames, rfl⟩ := hf
  exact hnames.exists_target h

theorem isMarked_of_parse {options : ReadOptions} {text : String}
    (h : parse options text = .ok b) : ∀ d ∈ b, d.IsMarked := by
  obtain ⟨dialect, keeps⟩ := options
  cases dialect with
  | ros1 =>
    obtain ⟨written, hwritten, hresolve⟩ := Attempts.bind_eq_ok_iff.mp h
    have hmarked : ∀ d ∈ written, d.IsMarked := fun d hd =>
      (isParsed_of_ofTextAsWritten hwritten d hd).isMarked
    cases keeps with
    | true =>
      obtain rfl := Attempts.pure_eq_ok_iff.mp hresolve
      exact hmarked
    | false => exact isMarked_of_resolve hmarked hresolve
  | ros2 => cases h
  | unknown name => cases h

/-- Hashing agrees with resolution in place on every bundle whose complex fields are told by the
built-in types, and what is read is such a bundle. -/
theorem resolveInPlace_agrees :
    (∀ options text b, parse options text = .ok b → ∀ d ∈ b, d.IsMarked) ∧
      ∀ b b', (∀ d ∈ b, d.IsMarked) → resolveInPlace.run b = .ok () b' → Agrees b b' := by
  refine ⟨fun options text b h => isMarked_of_parse h, fun b b' hmarked h => ?_⟩
  rw [run_resolveInPlace] at h
  cases hresolve : b.resolve with
  | ok resolved =>
    obtain ⟨-, rfl⟩ : () = () ∧ resolved = b' := by simpa [hresolve] using h
    exact agrees_of_resolve hmarked hresolve
  | error error => simp [hresolve] at h

/-- A short name, the standard header, and a name that two definitions bear. -/
theorem resolveInPlace_agrees_short_name :
    let written : Bundle :=
      [ ⟨none, [.plain "Point" "start"]⟩, ⟨some "pkg/Point", [.plain "float64" "x"]⟩,
        ⟨some "q/Twice", []⟩, ⟨some "q/Twice", [.plain "Header" "header"]⟩,
        ⟨some "std_msgs/Header", [.plain "uint32" "seq"]⟩ ]
    let resolved : Bundle :=
      [ ⟨none, [.plain "pkg/Point" "start"]⟩, ⟨some "pkg/Point", [.plain "float64" "x"]⟩,
        ⟨some "q/Twice", []⟩, ⟨some "q/Twice", [.plain "std_msgs/Header" "header"]⟩,
        ⟨some "std_msgs/Header", [.plain "uint32" "seq"]⟩ ]
    (∀ d ∈ written, d.IsMarked) ∧ resolveInPlace.run written = .ok () resolved ∧
      Agrees written resolved := by
  intro written resolved
  have hmarked : ∀ d ∈ written, d.IsMarked := by decide
  have h : resolveInPlace.run written = .ok () resolved := by rfl
  exact ⟨hmarked, h, resolveInPlace_agrees.2 written resolved hmarked h⟩

end Bundle
end MessageSchema
