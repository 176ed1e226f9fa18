import MessageSchema.Proofs.Fingerprint.References
import MessageSchema.Proofs.Attempts

/-!
The structure that a fingerprint tells. The hash of a definition is that of its lines, in which the
hashes of other definitions stand for their types; there is one exactly when every type in reach is
defined and none is defined in terms of itself.
-/
namespace MessageSchema

namespace Field

/-- `<type> <name>=<value>` -/
def hashedConstant (f : Field) : String :=
  f.typeName ++ " " ++ f.name ++ "=" ++ String.ofList f.constantText

/-- Nothing for a single value, else the length of the array in brackets, if it has one. -/
def hashedBrackets (f : Field) : String :=
  match f.isArray, f.arrayLength with
  | false, _ => ""
  | true, none => "[]"
  | true, some length => "[" ++ toString length ++ "]"

/-- `<type>[<length>] <name>`, or `<hash> <name>` when the type is not built in. -/
def hashedMember (hashOf : String → String) (f : Field) : String :=
  if TypeName.isBuiltin f.typeName then f.typeName ++ f.hashedBrackets ++ " " ++ f.name
  else hashOf f.typeName ++ " " ++ f.name

end Field

def Definition.hashedText (hashOf : String → String) (d : Definition) : String :=
  "\n".intercalate (d.constants.map Field.hashedConstant ++ d.members.map (Field.hashedMember hashOf))

def Digest.md5Hex (text : String) : String := String.ofList (Digest.textDigest text.toList)

namespace Bundle

variable {b : Bundle} {d e : Definition} {t : String} {h h' : String}

/-- The hash of a definition, given the hashes of the definitions that it refers to. -/
inductive StructuralHash (b : Bundle) : Definition → String → Prop
  | intro {d : Definition} (target : String → Definition) (hashOf : String → String)
    (found : ∀ t ∈ d.references, b.lookup? t = some (target t))
    (deeper : ∀ t ∈ d.references, StructuralHash b (target t) (hashOf t)) :
    StructuralHash b d (Digest.md5Hex (d.hashedText hashOf))

theorem hashedText_congr {hashOf hashOf' : String → String}
    (heq : ∀ t ∈ d.references, hashOf t = hashOf' t) : d.hashedText hashOf = d.hashedText hashOf' := by
  have hmembers : d.members.map (Field.hashedMember hashOf) =
      d.members.map (Field.hashedMember hashOf') := by
    refine List.map_congr_left fun f hf => ?_
    by_cases hbuiltin : TypeName.isBuiltin f.typeName = true
    · rw [Field.hashedMember, Field.hashedMember, if_pos hbuiltin, if_pos hbuiltin]
    · have hmem := Definition.typeName_mem_references hf (by simpa using hbuiltin)
      rw [Field.hashedMember, Field.hashedMember, if_neg hbuiltin, if_neg hbuiltin, heq _ hmem]
  rw [Definition.hashedText, hmembers, Definition.hashedText]

namespace StructuralHash

theorem unique (hd : b.StructuralHash d h) (hd' : b.StructuralHash d h') : h = h' := by
  induction hd generalizing h' with
  | intro target hashOf found deeper ih =>
    obtain ⟨target', hashOf', found', deeper'⟩ := hd'
    congr 1
    apply hashedText_congr
    intro t ht
    have htarget : target t = target' t := Option.some.inj ((found t ht).symm.trans (found' t ht))
    apply ih t ht
    rw [htarget]
    exact deeper' t ht

theorem of_reaches (hd : b.StructuralHash d h) (hreach : b.Reaches d t) :
    ∃ e h', b.lookup? t = some e ∧ b.StructuralHash e h' := by
  induction hreach generalizing h with
  | direct hmem =>
    obtain ⟨target, hashOf, found, deeper⟩ := hd
    exact ⟨_, _, found _ hmem, deeper _ hmem⟩
  | through hmem hnext _ ih =>
    obtain ⟨target, hashOf, found, deeper⟩ := hd
    have htarget := Option.some.inj ((found _ hmem).symm.trans hnext)
    exact ih (htarget ▸ deeper _ hmem)

/-- A definition that has a hash does not reach itself. -/
theorem not_reaches (hd : b.StructuralHash d h) (hname : b.lookup? t = some d) :
    ¬ b.Reaches d t := by
  -- Of the definitions on a cycle none could have its hash first.
  induction hd generalizing t with
  | @intro d target hashOf found deeper ih =>
    intro hreach
    cases hreach with
    | direct hmem =>
      have htarget : target t = d := Option.some.inj ((found t hmem).symm.trans hname)
      exact ih t hmem (found t hmem) (htarget.symm ▸ .direct hmem)
    | @through _ e u _ hmem hnext hrest =>
      have htarget : target u = e := Option.some.inj ((found u hmem).symm.trans hnext)
      exact ih u hmem (found u hmem) (htarget.symm ▸ hrest.trans hname (.direct hmem))

theorem isClosed (hd : b.StructuralHash d h) : b.IsClosed d := by
  intro t hreach
  obtain ⟨e, -, hfound, -⟩ := hd.of_reaches hreach
  simp [hfound]

theorem isAcyclic (hd : b.StructuralHash d h) : b.IsAcyclic d := by
  rintro t hreach ⟨e, hfound, hcycle⟩
  obtain ⟨e', h', hfound', he'⟩ := hd.of_reaches hreach
  obtain rfl : e' = e := Option.some.inj (hfound'.symm.trans hfound)
  exact he'.not_reaches hfound hcycle

end StructuralHash

/-! The digest along a trail -/

theorem toList_hashedConstant (f : Field) : f.hashedConstant.toList = f.constantSignature := by
  simp [Field.hashedConstant, Field.constantSignature]

theorem toList_hashedMember_of_builtin {f : Field} (hbuiltin : TypeName.isBuiltin f.typeName = true)
    (hashOf : String → String) : (f.hashedMember hashOf).toList = f.builtinSignature := by
  have htype : (f.typeName ++ f.hashedBrackets).toList = f.builtinType := by
    rw [Field.hashedBrackets, Field.builtinType]
    cases f.isArray with
    | false => simp
    | true =>
      cases f.arrayLength with
      | none => simp
      | some length => simp [toString, Decimal.ofNat]
  rw [Field.hashedMember, if_pos hbuiltin, String.toList_append, String.toList_append, htype,
    Field.builtinSignature, List.append_assoc]
  rfl

theorem toList_hashedMember_of_complex {f : Field}
    (hbuiltin : TypeName.isBuiltin f.typeName = false) (hashOf : String → String) :
    (f.hashedMember hashOf).toList = f.complexSignature (hashOf f.typeName).toList := by
  rw [Field.hashedMember, if_neg (by simp [hbuiltin]), Field.complexSignature,
    String.toList_append, String.toList_append, List.append_assoc]
  rfl

/-- The lines that are digested are the lines of the text that is hashed. -/
theorem toList_hashedText (hashOf : String → String) (d : Definition) :
    (d.hashedText hashOf).toList = Text.unlines (d.constants.map Field.constantSignature ++
      d.members.map fun f => (f.hashedMember hashOf).toList) := by
  have hconst : (d.constants.map Field.hashedConstant).map String.toList =
      d.constants.map Field.constantSignature := by
    rw [List.map_map]
    exact List.map_congr_left fun f _ => toList_hashedConstant f
  rw [Definition.hashedText, String.toList_intercalate, List.map_append, hconst, List.map_map]
  rfl

theorem textDigest_eq (hashOf : String → String) (d : Definition) :
    Digest.textDigest (Text.unlines (d.constants.map Field.constantSignature ++
        d.members.map fun f => (f.hashedMember hashOf).toList)) =
      (Digest.md5Hex (d.hashedText hashOf)).toList := by
  rw [← toList_hashedText, Digest.md5Hex, String.toList_ofList]

theorem signature_eq_ok_iff {trail : List String} {f : Field} {line : Line} :
    b.signature trail f = .ok line ↔
      (TypeName.isBuiltin f.typeName = true ∧ line = f.builtinSignature) ∨
      (TypeName.isBuiltin f.typeName = false ∧ ∃ target digest, b.lookup? f.typeName = some target ∧
        f.typeName ∉ trail ∧ b.digest (f.typeName :: trail) target = .ok digest ∧
        line = f.complexSignature digest) := by
  rw [signature]
  cases TypeName.isBuiltin f.typeName with
  | true => simp [eq_comm]
  | false =>
    cases b.lookup? f.typeName with
    | none => simp
    | some target =>
      by_cases hmem : f.typeName ∈ trail
      · simp [hmem]
      · simp [hmem, Attempts.map_eq_ok_iff, @eq_comm _ line]

theorem signature_eq_error_iff {trail : List String} {f : Field} {e : SchemaError} :
    b.signature trail f = .error e ↔ TypeName.isBuiltin f.typeName = false ∧
      ((b.lookup? f.typeName = none ∧ e = .missingType f.typeName) ∨
      ∃ target, b.lookup? f.typeName = some target ∧
        ((f.typeName ∈ trail ∧ e = .cyclicType f.typeName) ∨
        (f.typeName ∉ trail ∧ b.digest (f.typeName :: trail) target = .error e))) := by
  rw [signature]
  cases TypeName.isBuiltin f.typeName with
  | true => simp
  | false =>
    cases b.lookup? f.typeName with
    | none => simp [eq_comm]
    | some target =>
      by_cases hmem : f.typeName ∈ trail
      · simp [hmem, eq_comm]
      · simp [hmem, Attempts.map_eq_error_iff]

def targetOf (b : Bundle) (d : Definition) (t : String) : Definition := (b.lookup? t).getD d

/-- The digest that a reference leads to when it is put on the trail. -/
def hashAlong (b : Bundle) (trail : List String) (d : Definition) (t : String) : String :=
  match b.digest (t :: trail) (b.targetOf d t) with
  | .ok digest => String.ofList digest
  | .error _ => ""

theorem exists_digest_of_mem_references {trail : List String} {digest : List Char}
    (h : b.digest trail d = .ok digest) (ht : t ∈ d.references) :
    ∃ deeper, b.lookup? t = some (b.targetOf d t) ∧ t ∉ trail ∧
      b.digest (t :: trail) (b.targetOf d t) = .ok deeper := by
  rw [digest_eq, Attempts.map_eq_ok_iff] at h
  obtain ⟨lines, hlines, -⟩ := h
  obtain ⟨f, hf, rfl, hbuiltin⟩ := Definition.mem_references.mp ht
  obtain ⟨line, -, hline⟩ := Attempts.exists_result_of_mapM_eq_ok hlines f hf
  rcases signature_eq_ok_iff.mp hline with ⟨hbuiltin', -⟩ | ⟨-, e, deeper, hfound, hnew, he, -⟩
  · simp [hbuiltin] at hbuiltin'
  · have htarget : b.targetOf d f.typeName = e := by simp [targetOf, hfound]
    rw [htarget]
    exact ⟨deeper, hfound, hnew, he⟩

theorem mapM_signature_of_digest {trail : List String} {digest : List Char}
    (h : b.digest trail d = .ok digest) : d.members.mapM (b.signature trail) =
      .ok (d.members.map fun f => (f.hashedMember (b.hashAlong trail d)).toList) := by
  apply Attempts.mapM_eq_ok_map
  intro f hf
  rw [signature_eq_ok_iff]
  cases hbuiltin : TypeName.isBuiltin f.typeName with
  | true => exact .inl ⟨rfl, toList_hashedMember_of_builtin hbuiltin _⟩
  | false =>
    obtain ⟨deeper, hfound, hnew, hdeeper⟩ :=
      exists_digest_of_mem_references h (Definition.typeName_mem_references hf hbuiltin)
    refine .inr ⟨rfl, _, deeper, hfound, hnew, hdeeper, ?_⟩
    rw [toList_hashedMember_of_complex hbuiltin, hashAlong, hdeeper, String.toList_ofList]

theorem digest_eq_md5Hex {trail : List String} {digest : List Char}
    (h : b.digest trail d = .ok digest) :
    String.ofList digest = Digest.md5Hex (d.hashedText (b.hashAlong trail d)) := by
  have hlines := mapM_signature_of_digest h
  rw [digest_eq, hlines, Attempts.map_eq_ok_iff] at h
  obtain ⟨_, ⟨rfl⟩, rfl⟩ := h
  rw [textDigest_eq, String.ofList_toList]

theorem structuralHash_of_digest {trail : List String} {digest : List Char}
    (h : b.digest trail d = .ok digest) : b.StructuralHash d (String.ofList digest) := by
  -- With fewer and fewer names that are not on the trail yet.
  induction trail, d using Bundle.digest.induct b generalizing digest with
  | case1 trail d ih =>
    rw [digest_eq_md5Hex h]
    apply StructuralHash.intro (b.targetOf d)
    · intro t ht
      obtain ⟨deeper, hfound, -, -⟩ := exists_digest_of_mem_references h ht
      exact hfound
    · intro t ht
      obtain ⟨deeper, hfound, hnew, hdeeper⟩ := exists_digest_of_mem_references h ht
      obtain ⟨f, -, rfl, -⟩ := Definition.mem_references.mp ht
      rw [hashAlong, hdeeper]
      exact ih f _ hfound hnew hdeeper

/-- A digest fails at a type in reach: one that is not defined, or one that closes a cycle, with the
trail or with itself. -/
theorem exists_of_digest_eq_error {trail : List String} {e : SchemaError}
    (h : b.digest trail d = .error e) : ∃ t, b.Reaches d t ∧
      ((b.lookup? t = none ∧ e = .missingType t) ∨
        ((t ∈ trail ∨ b.IsRecursive t) ∧ e = .cyclicType t)) := by
  induction trail, d using Bundle.digest.induct b with
  | case1 trail d ih =>
    rw [digest_eq, Attempts.map_eq_error_iff] at h
    obtain ⟨f, hf, hline⟩ := Attempts.exists_of_mapM_eq_error h
    obtain ⟨hbuiltin, hcause⟩ := signature_eq_error_iff.mp hline
    have hmem := Definition.typeName_mem_references hf hbuiltin
    rcases hcause with hmissing | ⟨target, hfound, ⟨htrail, hcyclic⟩ | ⟨hnew, hdeeper⟩⟩
    · exact ⟨_, .direct hmem, .inl hmissing⟩
    · exact ⟨_, .direct hmem, .inr ⟨.inl htrail, hcyclic⟩⟩
    · obtain ⟨t, hreach, hcause⟩ := ih f target hfound hnew hdeeper
      refine ⟨t, .through hmem hfound hreach, ?_⟩
      rcases hcause with hmissing | ⟨htrail | hrecursive, hcyclic⟩
      · exact .inl hmissing
      · rcases List.mem_cons.mp htrail with rfl | htrail
        · exact .inr ⟨.inr ⟨target, hfound, hreach⟩, hcyclic⟩
        · exact .inr ⟨.inl htrail, hcyclic⟩
      · exact .inr ⟨.inr hrecursive, hcyclic⟩

/-! Fingerprints -/

/-- What the fingerprint of a definition says: there is one exactly when all types in reach are
defined and none of them is recursive, and then it is the hash of the definition; an error names a
type in reach that is at fault. -/
structure Fingerprints (b : Bundle) (d : Definition) (outcome : Except SchemaError String) :
    Prop where
  ok_iff : (∃ h, outcome = .ok h) ↔ b.IsClosed d ∧ b.IsAcyclic d
  eq_ok_iff : ∀ h, outcome = .ok h ↔ b.StructuralHash d h
  error : ∀ e, outcome = .error e → ∃ t, b.Reaches d t ∧
    ((b.lookup? t = none ∧ e = .missingType t) ∨ (b.IsRecursive t ∧ e = .cyclicType t))

/-- A trail does no harm when a type on it that is in reach is recursive. -/
theorem fingerprints_digest {trail : List String}
    (htrail : ∀ t ∈ trail, b.Reaches d t → b.IsRecursive t) :
    b.Fingerprints d ((b.digest trail d).map String.ofList) := by
  have herror : ∀ e, b.digest trail d = .error e → ∃ t, b.Reaches d t ∧
      ((b.lookup? t = none ∧ e = .missingType t) ∨ (b.IsRecursive t ∧ e = .cyclicType t)) := by
    intro e he
    obtain ⟨t, hreach, hmissing | ⟨htrail' | hrecursive, hcyclic⟩⟩ := exists_of_digest_eq_error he
    · exact ⟨t, hreach, .inl hmissing⟩
    · exact ⟨t, hreach, .inr ⟨htrail t htrail' hreach, hcyclic⟩⟩
    · exact ⟨t, hreach, .inr ⟨hrecursive, hcyclic⟩⟩
  cases hdigest : b.digest trail d with
  | ok digest =>
    have hash := structuralHash_of_digest hdigest
    refine ⟨⟨fun _ => ⟨hash.isClosed, hash.isAcyclic⟩, fun _ => ⟨_, rfl⟩⟩, fun h => ?_, ?_⟩
    · constructor
      · rintro hok
        obtain rfl : String.ofList digest = h := Except.ok.inj hok
        exact hash
      · intro hd
        rw [hd.unique hash]
        rfl
    · rintro e ⟨⟩
  | error e =>
    obtain ⟨t, hreach, hcause⟩ := herror e hdigest
    have hfails : ¬ (b.IsClosed d ∧ b.IsAcyclic d) := by
      rintro ⟨hclosed, hacyclic⟩
      rcases hcause with ⟨hmissing, -⟩ | ⟨hrecursive, -⟩
      · exact hclosed t hreach hmissing
      · exact hacyclic t hreach hrecursive
    refine ⟨⟨?_, fun h => absurd h hfails⟩, fun h => ⟨?_, fun hd => ?_⟩, ?_⟩
    · rintro ⟨h, ⟨⟩⟩
    · rintro ⟨⟩
    · exact absurd ⟨hd.isClosed, hd.isAcyclic⟩ hfails
    · rintro e' ⟨⟩
      exact ⟨t, hreach, hcause⟩

theorem fingerprints_root (root : Definition) (others : Bundle) :
    Fingerprints (root :: others) root (fingerprint (root :: others)) := by
  apply fingerprints_digest
  intro t ht
  exact absurd ht List.not_mem_nil

theorem fingerprint_of_shallow {root : Definition} {others : Bundle} (target : Definition)
    (hfound : root.references.map (lookup? (root :: others)) = root.references.map fun _ => some target)
    (hflat : target.references = []) :
    fingerprint (root :: others) = .ok (Digest.md5Hex
      (root.hashedText fun _ => Digest.md5Hex (target.hashedText fun _ => ""))) := by
  have htarget : StructuralHash (root :: others) target
      (Digest.md5Hex (target.hashedText fun _ => "")) :=
    .intro (fun _ => target) (fun _ => "") (by simp [hflat]) (by simp [hflat])
  rw [(fingerprints_root root others).eq_ok_iff]
  exact .intro (fun _ => target) _ (List.map_inj_left.mp hfound) fun _ _ => htarget

/-- The fingerprint of a bundle is that of its root, and the fingerprint of a name is that of its
last definition; a name without one is missing. -/
theorem fingerprint_spec (root : Definition) (others : Bundle) :
    Fingerprints (root :: others) root (fingerprint (root :: others)) ∧
      ∀ name, match lookup? (root :: others) name with
        | some d => Fingerprints (root :: others) d (fingerprintOf (root :: others) name)
        | none => fingerprintOf (root :: others) name = .error (.missingType name) := by
  refine ⟨fingerprints_root root others, fun name => ?_⟩
  cases hname : lookup? (root :: others) name with
  | none => simp only [fingerprintOf, hname]
  | some d =>
    simp only [fingerprintOf, hname]
    apply fingerprints_digest
    intro t ht hreach
    obtain rfl := List.mem_singleton.mp ht
    exact ⟨d, hname, hreach⟩

end Bundle
end MessageSchema
