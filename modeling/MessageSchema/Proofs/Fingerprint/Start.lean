import MessageSchema.Proofs.Fingerprint.Collision
import MessageSchema.Proofs.Fingerprint.Dependence

/-!
Where hashing starts. A definition is hashed as the root, with nothing on the trail, or by its name,
with the name on the trail. On a cycle through the definition the first way goes round once more, so
that the cycle shows at another type; in all else the two ways agree. For whether the outcome is a
missing type depends on the first references that cannot be hashed, and not on the trail.
-/
namespace MessageSchema
namespace Bundle

variable {b : Bundle} {d e : Definition} {t u name : String} {trail : List String} {n m : ℕ}

/-! The references of a definition in turn -/

def follow (b : Bundle) (trail : List String) (t : String) : Except SchemaError (List Char) :=
  match b.lookup? t with
  | none => .error (.missingType t)
  | some e => if t ∈ trail then .error (.cyclicType t) else b.digest (t :: trail) e

theorem follow_of_lookup?_eq_none (h : b.lookup? t = none) (trail : List String) :
    b.follow trail t = .error (.missingType t) := by
  simp [follow, h]

theorem follow_of_lookup? (h : b.lookup? t = some e) (hnew : t ∉ trail) :
    b.follow trail t = b.digest (t :: trail) e := by
  simp [follow, h, hnew]

theorem signature_eq_map_follow {f : Field} (hbuiltin : TypeName.isBuiltin f.typeName = false) :
    b.signature trail f = (b.follow trail f.typeName).map f.complexSignature := by
  unfold signature follow
  cases b.lookup? f.typeName with
  | none => simp [hbuiltin, Except.map]
  | some e => by_cases hmem : f.typeName ∈ trail <;> simp [hbuiltin, hmem, Except.map]

theorem mapM_signature_eq_error_iff {fs : List Field} {error : SchemaError} :
    fs.mapM (b.signature trail) = .error error ↔
      ((fs.map Field.typeName).filter fun t => !TypeName.isBuiltin t).mapM (b.follow trail) =
        .error error := by
  induction fs with
  | nil => simp
  | cons f fs ih =>
    rw [Attempts.mapM_cons_eq_error_iff, List.map_cons]
    cases hbuiltin : TypeName.isBuiltin f.typeName with
    | true => simp [signature, hbuiltin, ih]
    | false =>
      rw [List.filter_cons_of_pos (by simp [hbuiltin]), Attempts.mapM_cons_eq_error_iff, ih,
        signature_eq_map_follow hbuiltin]
      simp [Attempts.map_eq_error_iff, Attempts.map_eq_ok_iff]

/-- A digest fails at the first reference that cannot be followed. -/
theorem digest_eq_error_iff {error : SchemaError} : b.digest trail d = .error error ↔
    ∃ before t after, d.references = before ++ t :: after ∧
      (∀ u ∈ before, ∃ digest, b.follow trail u = .ok digest) ∧ b.follow trail t = .error error := by
  rw [digest_eq, Attempts.map_eq_error_iff, mapM_signature_eq_error_iff, Attempts.mapM_eq_error_iff]
  rfl

/-! The way to a missing type -/

def IsSettled (b : Bundle) (t : String) : Prop := ∃ e h, b.lookup? t = some e ∧ b.StructuralHash e h

/-- The first references that are not settled lead from the definition to a type that is not defined,
past that many other definitions. -/
inductive LeadsTo (b : Bundle) (t : String) : ℕ → Definition → Prop
  | here {d : Definition} {before after : List String} : d.references = before ++ t :: after →
      (∀ u ∈ before, b.IsSettled u) → b.lookup? t = none → LeadsTo b t 0 d
  | further {n : ℕ} {d e : Definition} {u : String} {before after : List String} :
      d.references = before ++ u :: after → (∀ v ∈ before, b.IsSettled v) → b.lookup? u = some e →
      LeadsTo b t n e → LeadsTo b t (n + 1) d

theorem isSettled_of_follow {digest : List Char} (h : b.follow trail t = .ok digest) :
    b.IsSettled t := by
  unfold follow at h
  split at h
  · cases h
  · rename_i e hfound
    split at h
    · cases h
    · exact ⟨e, _, hfound, structuralHash_of_digest h⟩

theorem not_isSettled_of_lookup?_eq_none (h : b.lookup? t = none) : ¬ b.IsSettled t := by
  rintro ⟨e, hash, hfound, -⟩
  simp [h] at hfound

theorem first_unique {before before' after after' : List String} {u u' : String}
    (hbefore : ∀ v ∈ before, b.IsSettled v) (hbefore' : ∀ v ∈ before', b.IsSettled v)
    (hu : ¬ b.IsSettled u) (hu' : ¬ b.IsSettled u')
    (h : before ++ u :: after = before' ++ u' :: after') : u = u' := by
  induction before generalizing before' with
  | nil =>
    cases before' with
    | nil => exact (List.cons.inj h).1
    | cons v before' =>
      obtain rfl : u = v := (List.cons.inj h).1
      exact absurd (hbefore' u List.mem_cons_self) hu
  | cons v before ih =>
    cases before' with
    | nil =>
      obtain rfl : v = u' := (List.cons.inj h).1
      exact absurd (hbefore v List.mem_cons_self) hu'
    | cons v' before' =>
      exact ih (fun w hw => hbefore w (List.mem_cons_of_mem v hw))
        (fun w hw => hbefore' w (List.mem_cons_of_mem v' hw)) (List.cons.inj h).2

/-- A settled type has its digest on any trail without settled types: none of these is reached. -/
theorem IsSettled.follow_eq_ok (ht : b.IsSettled t) (htrail : ∀ u ∈ trail, ¬ b.IsSettled u) :
    ∃ digest, b.follow trail t = .ok digest := by
  have hnew : t ∉ trail := fun hmem => htrail t hmem ht
  obtain ⟨e, h, hfound, hash⟩ := ht
  have hspec : b.Fingerprints e ((b.digest (t :: trail) e).map String.ofList) := by
    refine fingerprints_digest fun u hu hreach => ?_
    rcases List.mem_cons.mp hu with rfl | hu
    · exact ⟨e, hfound, hreach⟩
    · obtain ⟨e', h', hfound', hash'⟩ := hash.of_reaches hreach
      exact absurd ⟨e', h', hfound', hash'⟩ (htrail u hu)
  obtain ⟨digest, hdigest, -⟩ := Attempts.map_eq_ok_iff.mp ((hspec.eq_ok_iff h).mpr hash)
  exact ⟨digest, by rw [follow_of_lookup? hfound hnew, hdigest]⟩

namespace LeadsTo

theorem reaches (h : b.LeadsTo t n d) : b.Reaches d t ∧ b.lookup? t = none := by
  induction h with
  | here hreferences _ hmissing => exact ⟨.direct (by simp [hreferences]), hmissing⟩
  | further hreferences _ hfound _ ih => exact ⟨.through (by simp [hreferences]) hfound ih.1, ih.2⟩

theorem not_isSettled (h : b.LeadsTo t n d) (hfound : b.lookup? u = some d) : ¬ b.IsSettled u := by
  rintro ⟨e, hash, hfound', he⟩
  obtain rfl : d = e := Option.some.inj (hfound.symm.trans hfound')
  exact he.isClosed t h.reaches.1 h.reaches.2

/-- The way from a definition is determined, and so is its length. No definition is met twice. -/
theorem length_unique (h : b.LeadsTo t n d) (h' : b.LeadsTo t m d) : n = m := by
  induction h generalizing m with
  | here hreferences hbefore hmissing =>
    cases h' with
    | here => rfl
    | further hreferences' hbefore' hfound hrest =>
      obtain rfl := first_unique hbefore hbefore' (not_isSettled_of_lookup?_eq_none hmissing)
        (hrest.not_isSettled hfound) (hreferences.symm.trans hreferences')
      simp [hmissing] at hfound
  | further hreferences hbefore hfound hrest ih =>
    cases h' with
    | here hreferences' hbefore' hmissing =>
      obtain rfl := first_unique hbefore hbefore' (hrest.not_isSettled hfound)
        (not_isSettled_of_lookup?_eq_none hmissing) (hreferences.symm.trans hreferences')
      simp [hmissing] at hfound
    | further hreferences' hbefore' hfound' hrest' =>
      obtain rfl := first_unique hbefore hbefore' (hrest.not_isSettled hfound)
        (hrest'.not_isSettled hfound') (hreferences.symm.trans hreferences')
      obtain rfl := Option.some.inj (hfound.symm.trans hfound')
      rw [ih hrest']

/-- On a trail of definitions from which the way is as long at least, the way is gone to its end. -/
theorem digest_eq (h : b.LeadsTo t n d)
    (htrail : ∀ u ∈ trail, ∃ e m, b.lookup? u = some e ∧ n ≤ m ∧ b.LeadsTo t m e) :
    b.digest trail d = .error (.missingType t) := by
  have hunsettled {trail : List String} {n : ℕ}
      (htrail : ∀ u ∈ trail, ∃ e m, b.lookup? u = some e ∧ n ≤ m ∧ b.LeadsTo t m e) :
      ∀ u ∈ trail, ¬ b.IsSettled u := by
    intro u hu
    obtain ⟨e, m, hfound, -, hleads⟩ := htrail u hu
    exact hleads.not_isSettled hfound
  induction h generalizing trail with
  | here hreferences hbefore hmissing =>
    have hsettled := fun u hu => (hbefore u hu).follow_eq_ok (hunsettled htrail)
    exact digest_eq_error_iff.mpr
      ⟨_, _, _, hreferences, hsettled, follow_of_lookup?_eq_none hmissing trail⟩
  | @further n d e u before after hreferences hbefore hfound hrest ih =>
    have hsettled := fun u hu => (hbefore u hu).follow_eq_ok (hunsettled htrail)
    have hnew : u ∉ trail := by
      intro hmem
      obtain ⟨e', m, hfound', hle, hleads⟩ := htrail u hmem
      obtain rfl := Option.some.inj (hfound.symm.trans hfound')
      have heq := hrest.length_unique hleads
      omega
    have hdeeper : b.digest (u :: trail) e = .error (.missingType t) := by
      refine ih fun v hv => ?_
      rcases List.mem_cons.mp hv with rfl | hv
      · exact ⟨e, n, hfound, le_rfl, hrest⟩
      · obtain ⟨e', m, hfound', hle, hleads⟩ := htrail v hv
        exact ⟨e', m, hfound', by omega, hleads⟩
    exact digest_eq_error_iff.mpr ⟨before, u, after, hreferences, hsettled,
      (follow_of_lookup? hfound hnew).trans hdeeper⟩

end LeadsTo

theorem exists_leadsTo_of_digest (h : b.digest trail d = .error (.missingType t)) :
    ∃ n, b.LeadsTo t n d := by
  induction trail, d using Bundle.digest.induct b with
  | case1 trail d ih =>
    obtain ⟨before, u, after, hreferences, hbefore, hu⟩ := digest_eq_error_iff.mp h
    have hsettled : ∀ v ∈ before, b.IsSettled v := by
      intro v hv
      obtain ⟨digest, hdigest⟩ := hbefore v hv
      exact isSettled_of_follow hdigest
    cases hfound : b.lookup? u with
    | none =>
      obtain rfl : u = t := by simpa [follow, hfound] using hu
      exact ⟨0, .here hreferences hsettled hfound⟩
    | some e =>
      by_cases hmem : u ∈ trail
      · simp [follow, hfound, hmem] at hu
      · rw [follow_of_lookup? hfound hmem] at hu
        obtain ⟨f, -, rfl, -⟩ := Definition.mem_references.mp
          (show u ∈ d.references by simp [hreferences])
        obtain ⟨n, hleads⟩ := ih f e hfound hmem hu
        exact ⟨n + 1, .further hreferences hsettled hfound hleads⟩

/-! By its name and as the root -/

/-- The outcomes are the same, only that a cycle may show at different types. -/
def AgreeUpToCycle (outcome outcome' : Except SchemaError String) : Prop :=
  outcome = outcome' ∨
    ∃ t u, outcome = .error (.cyclicType t) ∧ outcome' = .error (.cyclicType u)

/-- The same type is missing from a definition by its name and as the root. -/
theorem digest_eq_missingType_iff (hname : b.lookup? name = some d) :
    b.digest [name] d = .error (.missingType t) ↔ b.digest [] d = .error (.missingType t) := by
  constructor
  · intro h
    obtain ⟨n, hleads⟩ := exists_leadsTo_of_digest h
    exact hleads.digest_eq fun u hu => absurd hu List.not_mem_nil
  · intro h
    obtain ⟨n, hleads⟩ := exists_leadsTo_of_digest h
    refine hleads.digest_eq fun u hu => ?_
    obtain rfl := List.mem_singleton.mp hu
    exact ⟨d, n, hname, le_rfl, hleads⟩

theorem Fingerprints.agreeUpToCycle {x y : Except SchemaError String} (hx : b.Fingerprints d x)
    (hy : b.Fingerprints d y)
    (hmissing : ∀ t, x = .error (.missingType t) ↔ y = .error (.missingType t)) :
    AgreeUpToCycle x y := by
  cases x with
  | ok h => exact .inl ((hy.eq_ok_iff h).mpr ((hx.eq_ok_iff h).mp rfl)).symm
  | error error =>
    cases y with
    | ok h => cases (hx.eq_ok_iff h).mpr ((hy.eq_ok_iff h).mp rfl)
    | error error' =>
      obtain ⟨t, -, ⟨-, rfl⟩ | ⟨-, rfl⟩⟩ := hx.error error rfl
      · exact .inl ((hmissing t).mp rfl).symm
      · obtain ⟨u, -, ⟨-, rfl⟩ | ⟨-, rfl⟩⟩ := hy.error error' rfl
        · cases (hmissing u).mpr rfl
        · exact .inr ⟨t, u, rfl, rfl⟩

theorem agreeUpToCycle_digest (hname : b.lookup? name = some d) :
    AgreeUpToCycle ((b.digest [name] d).map String.ofList) ((b.digest [] d).map String.ofList) := by
  have hnamed : b.Fingerprints d ((b.digest [name] d).map String.ofList) := by
    refine fingerprints_digest fun t ht hreach => ?_
    obtain rfl := List.mem_singleton.mp ht
    exact ⟨d, hname, hreach⟩
  have hroot : b.Fingerprints d ((b.digest [] d).map String.ofList) :=
    fingerprints_digest fun t ht => absurd ht List.not_mem_nil
  refine hnamed.agreeUpToCycle hroot fun t => ?_
  rw [Attempts.map_eq_error_iff, Attempts.map_eq_error_iff, digest_eq_missingType_iff hname]

/-- A copy of a definition in front of the bundle is hashed like the definition with nothing on the
trail. -/
theorem fingerprint_cons (hname : b.lookup? name = some d) :
    fingerprint (d :: b) = (b.digest [] d).map String.ofList := by
  have hlookup (t : String) : lookup? (d :: b) t = b.lookup? t := by
    rw [lookup?_cons]
    by_cases hbears : d.name = some t
    · obtain rfl : name = t := by simpa [(mem_of_lookup? hname).2] using hbears
      simp [hname]
    · simp [hbears]
  have hdigest : digest (d :: b) [] d = b.digest [] d := by
    refine digest_congr (.of_fields_eq rfl) fun t _ => ?_
    rw [hlookup]
    cases b.lookup? t with
    | none => exact .none
    | some e => exact .some (.of_fields_eq rfl)
  rw [fingerprint, hdigest]

theorem fingerprintOf_eq (hname : b.lookup? name = some d) :
    b.fingerprintOf name = (b.digest [name] d).map String.ofList := by
  cases b with
  | nil => simp at hname
  | cons root others => simp [fingerprintOf, hname]

/-- A definition has the same fingerprint by its name and as the root, or fails in the same way both
times, with the same missing type or with some type of a cycle. And in the text of a root that has a
fingerprint, the hashes in front of the names of members are the fingerprints of their types. -/
theorem fingerprintOf_agrees :
    (∀ before d after name, d.name = some name → (∀ e ∈ after, e.name ≠ some name) →
      AgreeUpToCycle (fingerprintOf (before ++ d :: after) name)
        (fingerprint (d :: (before ++ d :: after)))) ∧
    ∀ root others h, fingerprint (root :: others) = .ok h →
      ∃ hashOf, digestedText (root :: others) [] root = .ok (root.hashedText hashOf).toList ∧
        h = Digest.md5Hex (root.hashedText hashOf) ∧
        ∀ f ∈ root.members, TypeName.isBuiltin f.typeName = false →
          fingerprintOf (root :: others) f.typeName = .ok (hashOf f.typeName) := by
  constructor
  · intro before d after name hname hlast
    have hfound : lookup? (before ++ d :: after) name = some d :=
      lookup?_eq_some_iff.mpr ⟨hname, before, after, rfl, hlast⟩
    rw [fingerprintOf_eq hfound, fingerprint_cons hfound]
    exact agreeUpToCycle_digest hfound
  · intro root others h hfingerprint
    obtain ⟨digest, hdigest, rfl⟩ := Attempts.map_eq_ok_iff.mp hfingerprint
    refine ⟨hashAlong (root :: others) [] root, digestedText_of_digest hdigest,
      digest_eq_md5Hex hdigest, fun f hf hbuiltin => ?_⟩
    have hmem := Definition.typeName_mem_references hf hbuiltin
    obtain ⟨deeper, hfound, -, hdeeper⟩ := exists_digest_of_mem_references hdigest hmem
    rw [fingerprintOf_eq hfound, hashAlong, hdeeper]
    rfl

/-- A cycle shows at the type itself or at the next one, by where hashing starts. And a root with one
member, whose hash is in front of its name. -/
theorem fingerprintOf_agrees_on_cycle :
    let a : Definition := ⟨some "p/A", [.plain "p/B" "b"]⟩
    let b : Definition := ⟨some "p/B", [.plain "p/A" "a"]⟩
    let point : Definition := ⟨some "p/A", [.plain "int32" "x"]⟩
    let root : Definition := ⟨none, [.plain "p/A" "a"]⟩
    fingerprintOf [b, a, b] "p/A" = .error (.cyclicType "p/A") ∧
      fingerprint [a, b, a, b] = .error (.cyclicType "p/B") ∧
      AgreeUpToCycle (fingerprintOf [b, a, b] "p/A") (fingerprint [a, b, a, b]) ∧
      fingerprint [root, point] = .ok "dd282bb5f4935f43f5938c8769c27d65" ∧
      ∃ hashOf, digestedText [root, point] [] root = .ok (root.hashedText hashOf).toList ∧
        fingerprintOf [root, point] "p/A" = .ok (hashOf "p/A") := by
  intro a b point root
  have hbuiltin : TypeName.isBuiltin "p/A" = false ∧ TypeName.isBuiltin "p/B" = false := by decide
  have hfingerprint : fingerprint [root, point] = .ok "dd282bb5f4935f43f5938c8769c27d65" := by
    rw [fingerprint_of_shallow point rfl rfl]
    exact congrArg Except.ok (by decide +kernel)
  obtain ⟨hashOf, htext, -, hmember⟩ := fingerprintOf_agrees.2 root [point] _ hfingerprint
  refine ⟨?_, ?_, fingerprintOf_agrees.1 [b] a [b] "p/A" rfl (by simp [b]), hfingerprint, hashOf,
    htext, hmember _ List.mem_cons_self hbuiltin.1⟩
  · simp [fingerprintOf, digest_eq, signature, Definition.members, Field.plain, hbuiltin, lookup?_cons,
      a, b]
    rfl
  · simp [fingerprint, digest_eq, signature, Definition.members, Field.plain, hbuiltin, lookup?_cons,
      a, b]
    rfl

end Bundle
end MessageSchema
