import MessageSchema.Proofs.Fingerprint.Signatures

/-!
What fingerprints tell apart. Definitions of one expansion have one fingerprint, whatever the names
of definitions are. The other way round, one fingerprint means one expansion, unless two different
texts that are digested on the way have the same digest.
-/
namespace MessageSchema
namespace Bundle

variable {b b' : Bundle} {d d' root root' : Definition} {tree tree' : Expansion}
  {trail : List String} {h h' : String}

def digestedText (b : Bundle) (trail : List String) (d : Definition) :
    Except SchemaError (List Char) :=
  (d.members.mapM (b.signature trail)).map fun lines =>
    Text.unlines (d.constants.map Field.constantSignature ++ lines)

theorem digest_eq_map_digestedText (b : Bundle) (trail : List String) (d : Definition) :
    b.digest trail d = (b.digestedText trail d).map Digest.textDigest := by
  rw [digest_eq, digestedText]
  cases d.members.mapM (b.signature trail) <;> rfl

/-- Two definitions, each one of those or reached by it, whose texts are different but have the same
digest. -/
def Collides (b : Bundle) (d : Definition) (b' : Bundle) (d' : Definition) : Prop :=
  ∃ e e' text text', b.Involves d e ∧ b'.Involves d' e' ∧
    b.digestedText [] e = .ok text ∧ b'.digestedText [] e' = .ok text' ∧
    text ≠ text' ∧ Digest.textDigest text = Digest.textDigest text'

theorem digestedText_of_digest {digest : List Char} (hdigest : b.digest trail d = .ok digest) :
    b.digestedText trail d = .ok (d.hashedText (b.hashAlong trail d)).toList := by
  rw [digestedText, mapM_signature_of_digest hdigest, toList_hashedText]
  rfl

namespace StructuralHash

theorem exists_deeper (hd : b.StructuralHash d h) :
    ∃ hashOf, h = Digest.md5Hex (d.hashedText hashOf) ∧
      ∀ t ∈ d.references, ∃ e, b.lookup? t = some e ∧ b.StructuralHash e (hashOf t) := by
  obtain ⟨target, hashOf, found, deeper⟩ := hd
  exact ⟨hashOf, rfl, fun t ht => ⟨target t, found t ht, deeper t ht⟩⟩

theorem isHashed {hashOf : String → String}
    (hdeeper : ∀ t ∈ d.references, ∃ e, b.lookup? t = some e ∧ b.StructuralHash e (hashOf t)) :
    ∀ f ∈ d.members, f.IsHashed hashOf := by
  intro f hf hbuiltin
  obtain ⟨e, -, he⟩ := hdeeper _ (Definition.typeName_mem_references hf hbuiltin)
  obtain ⟨deeper, hash, -⟩ := he.exists_deeper
  exact ⟨_, hash⟩

theorem exists_digest (hd : b.StructuralHash d h) :
    ∃ digest, b.digest [] d = .ok digest ∧ h = String.ofList digest := by
  have hempty : ∀ t ∈ ([] : List String), b.Reaches d t → b.IsRecursive t :=
    fun t ht => absurd ht List.not_mem_nil
  have houtcome := ((fingerprints_digest hempty).eq_ok_iff h).mpr hd
  obtain ⟨digest, hdigest, rfl⟩ := Attempts.map_eq_ok_iff.mp houtcome
  exact ⟨digest, hdigest, rfl⟩

theorem exists_digestedText (hd : b.StructuralHash d h) :
    ∃ text, b.digestedText [] d = .ok text ∧ h = String.ofList (Digest.textDigest text) := by
  obtain ⟨digest, hdigest, rfl⟩ := hd.exists_digest
  rw [digest_eq_map_digestedText] at hdigest
  obtain ⟨text, htext, rfl⟩ := Attempts.map_eq_ok_iff.mp hdigest
  exact ⟨text, htext, rfl⟩

/-- The text that is hashed is the text that is digested. -/
theorem digestedText_eq {hashOf : String → String} (hd : b.StructuralHash d h)
    (hdeeper : ∀ t ∈ d.references, ∃ e, b.lookup? t = some e ∧ b.StructuralHash e (hashOf t)) :
    b.digestedText [] d = .ok (d.hashedText hashOf).toList := by
  obtain ⟨digest, hdigest, -⟩ := hd.exists_digest
  rw [digestedText_of_digest hdigest]
  congr 2
  apply hashedText_congr
  intro t ht
  obtain ⟨deeper, hfound, -, hnext⟩ := exists_digest_of_mem_references hdigest ht
  obtain ⟨e, hfound', he⟩ := hdeeper t ht
  obtain rfl : b.targetOf d t = e := Option.some.inj (hfound.symm.trans hfound')
  have hash := structuralHash_of_digest hnext
  rw [hashAlong, hnext]
  exact hash.unique he

/-- Of one hash, the texts that are digested are the same unless they collide. -/
theorem digestedText_unique (hnot : ¬ Collides b root b' root')
    (hinvolved : b.Involves root d) (hinvolved' : b'.Involves root' d')
    (hd : b.StructuralHash d h) (hd' : b'.StructuralHash d' h) :
    b.digestedText [] d = b'.digestedText [] d' := by
  obtain ⟨text, htext, hdigest⟩ := hd.exists_digestedText
  obtain ⟨text', htext', hdigest'⟩ := hd'.exists_digestedText
  have hsame : Digest.textDigest text = Digest.textDigest text' :=
    String.ofList_inj.mp (hdigest.symm.trans hdigest')
  have heq : text = text' := by
    by_contra hne
    exact hnot ⟨d, d', text, text', hinvolved, hinvolved', htext, htext', hne, hsame⟩
  rw [htext, htext', heq]

theorem eq_of_expands (hd : b.StructuralHash d h) (hd' : b'.StructuralHash d' h')
    (htree : b.Expands d tree) (htree' : b'.Expands d' tree) : h = h' := by
  -- On the first hash; the tree behind each reference has the hash that stands for it in both texts.
  induction hd generalizing d' h' tree with
  | intro target hashOf found deeper ih =>
    obtain ⟨hashOf', rfl, hashes'⟩ := hd'.exists_deeper
    obtain ⟨treeOf, rfl, trees⟩ := htree.exists_deeper
    obtain ⟨treeOf', hsame, trees'⟩ := htree'.exists_deeper
    congr 1
    refine Definition.hashedText_eq_of_expansion_eq (fun t ht t' ht' heq => ?_) hsame
    obtain ⟨e', hfound', hash'⟩ := hashes' t' ht'
    have he := trees t ht (target t) (found t ht)
    have he' := trees' t' ht' e' hfound'
    exact ih t ht hash' he (heq ▸ he')

/-- One hash, one tree, when no texts collide. -/
theorem expands_eq (hnot : ¬ Collides b root b' root')
    (hdecodable : ∀ e, b.Involves root e → e.IsDecodable)
    (hdecodable' : ∀ e, b'.Involves root' e → e.IsDecodable)
    (hd : b.StructuralHash d h) (hd' : b'.StructuralHash d' h)
    (hinvolved : b.Involves root d) (hinvolved' : b'.Involves root' d')
    (htree : b.Expands d tree) (htree' : b'.Expands d' tree') : tree = tree' := by
  induction hd generalizing d' tree tree' with
  | @intro d target hashOf found deeper ih =>
    have hashes : ∀ t ∈ d.references, ∃ e, b.lookup? t = some e ∧ b.StructuralHash e (hashOf t) :=
      fun t ht => ⟨target t, found t ht, deeper t ht⟩
    have hd : b.StructuralHash d (Digest.md5Hex (d.hashedText hashOf)) :=
      .intro target hashOf found deeper
    obtain ⟨hashOf', -, hashes'⟩ := hd'.exists_deeper
    obtain ⟨treeOf, rfl, trees⟩ := htree.exists_deeper
    obtain ⟨treeOf', rfl, trees'⟩ := htree'.exists_deeper
    -- Then the texts are the same, and they tell the trees up to those behind the hashes in them.
    have htext : d.hashedText hashOf = d'.hashedText hashOf' := by
      have hdigested := digestedText_unique hnot hinvolved hinvolved' hd hd'
      rw [digestedText_eq hd hashes, digestedText_eq hd' hashes'] at hdigested
      exact String.toList_inj.mp (Except.ok.inj hdigested)
    refine Definition.expansion_eq_of_hashedText_eq (hdecodable d hinvolved)
      (hdecodable' d' hinvolved') (isHashed hashes) (isHashed hashes') (fun t ht t' ht' heq => ?_) htext
    obtain ⟨e', hfound', hash'⟩ := hashes' t' ht'
    have he := trees t ht (target t) (found t ht)
    have he' := trees' t' ht' e' hfound'
    exact ih t ht (heq ▸ hash') (hinvolved.lookup ht (found t ht)) (hinvolved'.lookup ht' hfound')
      he he'

end StructuralHash

theorem IsParsed.isDecodable (h : b.IsParsed)
    (hsolid : ∀ d ∈ b, ∀ name, d.name = some name → ∀ c ∈ name.toList, Text.isBlank c = false) :
    ∀ d ∈ b, d.IsDecodable := by
  intro d hd f hf
  have hparsed := (h.definitions d hd).fields f hf
  refine ⟨hparsed, ?_⟩
  -- A type is built in, or else it is the name of a definition.
  cases hcomplex : f.isComplex with
  | false => exact (hparsed.isToken_typeName hcomplex).solid
  | true =>
    obtain ⟨e, he, hname⟩ := exists_of_bearers_eq_one (h.bound d hd f hf hcomplex)
    exact hsolid e he _ hname

/-- Of two bundles that were read, where no name of a definition holds a blank, the fingerprints
are the same exactly when the expansions are, but for collisions of the digest. -/
theorem fingerprint_tells_expansion {text text' : String} {others others' : Bundle}
    (hparse : parse {} text = .ok (root :: others))
    (hparse' : parse {} text' = .ok (root' :: others'))
    (hsolid : ∀ d ∈ root :: others, ∀ name, d.name = some name →
      ∀ c ∈ name.toList, Text.isBlank c = false)
    (hsolid' : ∀ d ∈ root' :: others', ∀ name, d.name = some name →
      ∀ c ∈ name.toList, Text.isBlank c = false)
    (hfingerprint : fingerprint (root :: others) = .ok h)
    (hfingerprint' : fingerprint (root' :: others') = .ok h') :
    ∃ tree tree', (∀ any, Expands (root :: others) root any ↔ any = tree) ∧
      (∀ any, Expands (root' :: others') root' any ↔ any = tree') ∧
      (tree = tree' → h = h') ∧
      (h = h' → tree = tree' ∨ Collides (root :: others) root (root' :: others') root') := by
  have hash := ((fingerprints_root root others).eq_ok_iff h).mp hfingerprint
  have hash' := ((fingerprints_root root' others').eq_ok_iff h').mp hfingerprint'
  obtain ⟨tree, htree⟩ := hash.exists_expands
  obtain ⟨tree', htree'⟩ := hash'.exists_expands
  refine ⟨tree, tree', fun any => ⟨fun hany => hany.unique htree, fun heq => heq ▸ htree⟩,
    fun any => ⟨fun hany => hany.unique htree', fun heq => heq ▸ htree'⟩, ?_, ?_⟩
  · rintro rfl
    exact hash.eq_of_expands hash' htree htree'
  · rintro rfl
    refine or_iff_not_imp_right.mpr fun hnot => ?_
    have hdecodable := (isParsed_of_parse hparse).isDecodable hsolid
    have hdecodable' := (isParsed_of_parse hparse').isDecodable hsolid'
    exact StructuralHash.expands_eq hnot
      (fun e he => hdecodable e (mem_of_involves List.mem_cons_self he))
      (fun e he => hdecodable' e (mem_of_involves List.mem_cons_self he))
      hash hash' (Involves.refl _ _) (Involves.refl _ _) htree htree'

/-- The name of a definition does not show in the fingerprint. -/
theorem fingerprint_tells_expansion_renamed :
    let left : Bundle := [⟨none, [.plain "p/A" "a"]⟩, ⟨some "p/A", [.plain "int32" "x"]⟩]
    let right : Bundle := [⟨none, [.plain "q/B" "a"]⟩, ⟨some "q/B", [.plain "int32" "x"]⟩]
    parse {} "A a\n===\nMSG: p/A\nint32 x" = .ok left ∧
      parse {} "B a\n===\nMSG: q/B\nint32 x" = .ok right ∧
      fingerprint left = .ok "dd282bb5f4935f43f5938c8769c27d65" ∧
      fingerprint right = .ok "dd282bb5f4935f43f5938c8769c27d65" ∧
      ∃ tree tree',
        (∀ any, Expands left ⟨none, [.plain "p/A" "a"]⟩ any ↔ any = tree) ∧
        (∀ any, Expands right ⟨none, [.plain "q/B" "a"]⟩ any ↔ any = tree') ∧
        (tree = tree' ∨
          Collides left ⟨none, [.plain "p/A" "a"]⟩ right ⟨none, [.plain "q/B" "a"]⟩) := by
  intro left right
  have hparse : parse {} "A a\n===\nMSG: p/A\nint32 x" = .ok left := rfl
  have hparse' : parse {} "B a\n===\nMSG: q/B\nint32 x" = .ok right := rfl
  have hleft : fingerprint left = .ok "dd282bb5f4935f43f5938c8769c27d65" := by
    rw [fingerprint_of_shallow ⟨some "p/A", [.plain "int32" "x"]⟩ rfl rfl]
    exact congrArg Except.ok (by decide +kernel)
  have hright : fingerprint right = .ok "dd282bb5f4935f43f5938c8769c27d65" := by
    rw [fingerprint_of_shallow ⟨some "q/B", [.plain "int32" "x"]⟩ rfl rfl]
    exact congrArg Except.ok (by decide +kernel)
  have hsolid : ∀ d ∈ left ++ right, ∀ name, d.name = some name →
      (name.toList.all fun c => !Text.isBlank c) = true := by decide +kernel
  obtain ⟨tree, tree', hunique, hunique', -, hsame⟩ :=
    fingerprint_tells_expansion hparse hparse'
      (fun d hd name h => Text.all_solid_iff.mp (hsolid d (List.mem_append_left _ hd) name h))
      (fun d hd name h => Text.all_solid_iff.mp (hsolid d (List.mem_append_right _ hd) name h))
      hleft hright
  exact ⟨hparse, hparse', hleft, hright, tree, tree', hunique, hunique', hsame rfl⟩

end Bundle
end MessageSchema
