import MessageSchema.Proofs.Bundle.Parsed
import MessageSchema.Proofs.Fingerprint.Expansion

/-!
Signatures told apart. The lines of a definition are glued together without delimiters, but no piece
of a line may hold the character that ends it. So the text of a definition tells its lines, and a line
tells what it was made of, up to the definition behind a hash.
-/
namespace MessageSchema

namespace Text

theorem append_cons_inj {c : Char} {as as' bs bs' : List Char} (h : c ∉ as) (h' : c ∉ as')
    (heq : as ++ c :: bs = as' ++ c :: bs') : as = as' ∧ bs = bs' := by
  induction as generalizing as' with
  | nil =>
    cases as' with
    | nil => simpa using heq
    | cons a' as' => simp [(List.cons.inj heq).1] at h'
  | cons a as ih =>
    cases as' with
    | nil => simp [(List.cons.inj heq).1] at h
    | cons a' as' =>
      simp only [List.cons_append, List.cons.injEq, List.mem_cons, not_or] at heq h h'
      simpa [heq.1] using ih h.2 h'.2 heq.2

theorem isBlank_of_isDigit {c : Char} (h : c.isDigit = true) : isBlank c = false := by
  have hbounds : 48 ≤ c.toNat ∧ c.toNat ≤ 57 := by
    simpa [Char.isDigit, UInt32.le_iff_toNat_le] using h
  simp [isBlank, blankRanges]
  omega

def IsLine (line : Line) : Prop := line ≠ [] ∧ '\n' ∉ line

theorem filter_lines_unlines {ls : List Line} (h : ∀ l ∈ ls, IsLine l) :
    (lines (unlines ls)).filter (· ≠ []) = ls := by
  by_cases hnil : ls = []
  · subst hnil
    rfl
  · rw [lines, unlines, List.splitOn_intercalate '\n' (fun l hl => (h l hl).2) hnil,
      List.filter_eq_self]
    simpa using fun l hl => (h l hl).1

theorem unlines_inj {ls ls' : List Line} (h : ∀ l ∈ ls, IsLine l) (h' : ∀ l ∈ ls', IsLine l)
    (heq : unlines ls = unlines ls') : ls = ls' := by
  rw [← filter_lines_unlines h, heq, filter_lines_unlines h']

end Text

/-- Lists that agree after one change of their elements agree after any other that the first one
decides. -/
theorem map_eq_map_of_pairs {α β γ : Type} {as : List α} {bs : List α} {g g' : α → β} {k k' : α → γ}
    (hpair : ∀ a ∈ as, ∀ b ∈ bs, g a = g' b → k a = k' b) (h : as.map g = bs.map g') :
    as.map k = bs.map k' := by
  induction as generalizing bs with
  | nil => simp_all
  | cons a as ih =>
    cases bs with
    | nil => simp at h
    | cons b bs =>
      simp only [List.map_cons, List.cons.injEq, List.forall_mem_cons] at h hpair ⊢
      exact ⟨hpair.1.1 h.1, ih (fun a ha b hb => (hpair.2 a ha).2 b hb) h.2⟩

namespace Digest

theorem solid_md5Hex {text : String} : ∀ c ∈ (md5Hex text).toList, Text.isBlank c = false := by
  intro c hc
  rw [md5Hex, String.toList_ofList, textDigest] at hc
  obtain ⟨n, hn, rfl⟩ := mem_hex hc
  have hall : ∀ n < 16, Text.isBlank (Nat.digitChar n) = false := by decide
  exact hall n hn

theorem bracket_not_mem_md5Hex {text : String} : '[' ∉ (md5Hex text).toList := by
  intro hc
  rw [md5Hex, String.toList_ofList, textDigest] at hc
  obtain ⟨n, hn, heq⟩ := mem_hex hc
  have hall : ∀ n < 16, '[' ≠ Nat.digitChar n := by decide
  exact hall n hn heq

@[simp] theorem length_md5Hex (text : String) : (md5Hex text).toList.length = 32 := by
  simp [md5Hex]

end Digest

namespace Field

variable {f f' : Field} {hashOf hashOf' : String → String} {treeOf treeOf' : String → Expansion}

structure IsDecodable (f : Field) : Prop where
  parsed : f.IsParsed
  solid : ∀ c ∈ f.typeName.toList, Text.isBlank c = false

/-! Constants -/

theorem constantSignature_eq (f : Field) :
    f.constantSignature = f.typeName.toList ++ ' ' :: (f.name.toList ++ '=' :: f.constantText) := by
  simp [constantSignature]

theorem expandedConstant_eq (h : f.IsDecodable) (h' : f'.IsDecodable)
    (heq : f.constantSignature = f'.constantSignature) :
    f.expandedConstant = f'.expandedConstant := by
  have hblank : Text.isBlank ' ' = true := by decide
  rw [constantSignature_eq, constantSignature_eq] at heq
  obtain ⟨htype, hrest⟩ := Text.append_cons_inj (Text.not_mem_of_solid h.solid hblank)
    (Text.not_mem_of_solid h'.solid hblank) heq
  obtain ⟨hname, hvalue⟩ := Text.append_cons_inj h.parsed.name.equals_not_mem
    h'.parsed.name.equals_not_mem hrest
  rw [expandedConstant, expandedConstant, String.toList_inj.mp htype, String.toList_inj.mp hname,
    hvalue]

/-! Members -/

def memberHead (hashOf : String → String) (f : Field) : List Char :=
  if TypeName.isBuiltin f.typeName then f.builtinType else (hashOf f.typeName).toList

theorem toList_hashedMember (hashOf : String → String) (f : Field) :
    (f.hashedMember hashOf).toList = f.memberHead hashOf ++ ' ' :: f.name.toList := by
  rw [memberHead]
  cases hbuiltin : TypeName.isBuiltin f.typeName with
  | true => exact Bundle.toList_hashedMember_of_builtin hbuiltin hashOf
  | false => exact Bundle.toList_hashedMember_of_complex hbuiltin hashOf

theorem builtinType_eq (h : f.IsParsed) : f.builtinType = f.typeName.toList ++ f.shapeText := by
  rw [builtinType, shapeText, brackets, h.unbounded.2]
  cases f.isArray with
  | false => simp
  | true => cases f.arrayLength <;> simp

theorem solid_builtinType (h : f.IsParsed) (hmember : f.isConstant = false)
    (hbuiltin : TypeName.isBuiltin f.typeName = true) :
    ∀ c ∈ f.builtinType, Text.isBlank c = false := by
  intro c hc
  rw [builtinType_eq h, List.mem_append] at hc
  rcases hc with hc | hc
  · exact (h.isToken_typeName (by simp [h.isComplex, hbuiltin])).solid c hc
  · rcases mem_shapeText h.isLegible hmember hc with rfl | rfl | hdigit
    · decide
    · decide
    · exact Text.isBlank_of_isDigit hdigit

/-- A hash is longer than any built-in type and holds no bracket. -/
theorem builtinType_ne_md5Hex (h : f.IsParsed) (hbuiltin : TypeName.isBuiltin f.typeName = true)
    (text : String) : f.builtinType ≠ (Digest.md5Hex text).toList := by
  intro heq
  rw [builtinType_eq h, shapeText] at heq
  cases harray : f.isArray with
  | true =>
    have hmem : '[' ∈ f.typeName.toList ++ f.brackets := by
      rw [brackets]
      split <;> simp
    rw [harray, if_pos rfl] at heq
    exact Digest.bracket_not_mem_md5Hex (heq ▸ hmem)
  | false =>
    have hall : ∀ t ∈ TypeName.builtin, t.toList.length ≠ 32 := by decide
    have hlength := congrArg List.length heq
    simp only [harray, Bool.false_eq_true, if_false, List.append_nil, Digest.length_md5Hex] at hlength
    exact hall _ (List.contains_iff_mem.mp hbuiltin) hlength

theorem eq_of_builtinSignature_eq (h : f.IsParsed) (h' : f'.IsParsed)
    (hmember : f.isConstant = false) (hmember' : f'.isConstant = false)
    (hbuiltin : TypeName.isBuiltin f.typeName = true)
    (hbuiltin' : TypeName.isBuiltin f'.typeName = true)
    (heq : f.builtinSignature = f'.builtinSignature) : f = f' := by
  have hread {f : Field} (h : f.IsParsed) (hmember : f.isConstant = false)
      (hbuiltin : TypeName.isBuiltin f.typeName = true) :
      Field.ofLine (Text.trim f.builtinSignature) = .ok f := by
    have hline : f.builtinSignature = f.memberLine := by
      rw [builtinSignature, builtinType_eq h, memberLine_eq h.isLegible hmember, List.append_assoc]
    rw [hline]
    have htoken := h.isToken_typeName (by simp [h.isComplex, hbuiltin])
    exact ofLine_memberLine h.isLegible hmember htoken (h.isDeclarable hmember)
  have hsame := hread h hmember hbuiltin
  rw [heq, hread h' hmember' hbuiltin'] at hsame
  exact (Except.ok.inj hsame).symm

/-- A hash stands for the type unless that is built in. -/
def IsHashed (hashOf : String → String) (f : Field) : Prop :=
  TypeName.isBuiltin f.typeName = false → ∃ text, hashOf f.typeName = Digest.md5Hex text

theorem solid_memberHead (h : f.IsParsed) (hmember : f.isConstant = false)
    (hhash : f.IsHashed hashOf) : ∀ c ∈ f.memberHead hashOf, Text.isBlank c = false := by
  rw [memberHead]
  cases hbuiltin : TypeName.isBuiltin f.typeName with
  | true => exact solid_builtinType h hmember hbuiltin
  | false =>
    obtain ⟨text, htext⟩ := hhash hbuiltin
    simpa [htext] using Digest.solid_md5Hex

/-- The line of a member tells all of it but the definition behind a hash. -/
theorem expandedMember_eq (h : f.IsParsed) (h' : f'.IsParsed)
    (hmember : f.isConstant = false) (hmember' : f'.isConstant = false)
    (hhash : f.IsHashed hashOf) (hhash' : f'.IsHashed hashOf')
    (hdeeper : TypeName.isBuiltin f.typeName = false → TypeName.isBuiltin f'.typeName = false →
      hashOf f.typeName = hashOf' f'.typeName → treeOf f.typeName = treeOf' f'.typeName)
    (heq : (f.hashedMember hashOf).toList = (f'.hashedMember hashOf').toList) :
    f.expandedMember treeOf = f'.expandedMember treeOf' := by
  have hblank : Text.isBlank ' ' = true := by decide
  have hsplit := heq
  rw [toList_hashedMember, toList_hashedMember] at hsplit
  obtain ⟨hhead, hname⟩ := Text.append_cons_inj
    (Text.not_mem_of_solid (solid_memberHead h hmember hhash) hblank)
    (Text.not_mem_of_solid (solid_memberHead h' hmember' hhash') hblank) hsplit
  rw [memberHead, memberHead] at hhead
  cases hbuiltin : TypeName.isBuiltin f.typeName <;>
    cases hbuiltin' : TypeName.isBuiltin f'.typeName
  case true.true =>
    rw [Bundle.toList_hashedMember_of_builtin hbuiltin,
      Bundle.toList_hashedMember_of_builtin hbuiltin'] at heq
    obtain rfl := eq_of_builtinSignature_eq h h' hmember hmember' hbuiltin hbuiltin' heq
    simp [expandedMember, hbuiltin]
  case true.false =>
    obtain ⟨text, htext⟩ := hhash' hbuiltin'
    simp only [hbuiltin, hbuiltin', if_true, Bool.false_eq_true, if_false, htext] at hhead
    exact absurd hhead (builtinType_ne_md5Hex h hbuiltin text)
  case false.true =>
    obtain ⟨text, htext⟩ := hhash hbuiltin
    simp only [hbuiltin, hbuiltin', if_true, Bool.false_eq_true, if_false, htext] at hhead
    exact absurd hhead.symm (builtinType_ne_md5Hex h' hbuiltin' text)
  case false.false =>
    simp only [hbuiltin, hbuiltin', Bool.false_eq_true, if_false] at hhead
    have htree := hdeeper hbuiltin hbuiltin' (String.toList_inj.mp hhead)
    simp [expandedMember, hbuiltin, hbuiltin', htree, String.toList_inj.mp hname]

theorem hashedMember_eq
    (hdeeper : TypeName.isBuiltin f.typeName = false → TypeName.isBuiltin f'.typeName = false →
      treeOf f.typeName = treeOf' f'.typeName → hashOf f.typeName = hashOf' f'.typeName)
    (heq : f.expandedMember treeOf = f'.expandedMember treeOf') :
    f.hashedMember hashOf = f'.hashedMember hashOf' := by
  cases hbuiltin : TypeName.isBuiltin f.typeName <;>
    cases hbuiltin' : TypeName.isBuiltin f'.typeName <;>
    simp only [expandedMember, hashedMember, hashedBrackets, hbuiltin, hbuiltin', if_true,
      Bool.false_eq_true, if_false, ExpandedMember.builtin.injEq, ExpandedMember.complex.injEq,
      reduceCtorEq] at heq ⊢
  case true.true => simp [heq.1, heq.2.1, heq.2.2.1, heq.2.2.2]
  case false.false => rw [heq.1, hdeeper hbuiltin hbuiltin' heq.2]

end Field

namespace Definition

variable {d d' : Definition} {hashOf hashOf' : String → String} {treeOf treeOf' : String → Expansion}

def IsDecodable (d : Definition) : Prop := ∀ f ∈ d.fields, f.IsDecodable

def hashedLines (hashOf : String → String) (d : Definition) : List Line :=
  d.constants.map Field.constantSignature ++ d.members.map fun f => (f.hashedMember hashOf).toList

def holdsValue (line : Line) : Bool := (line.dropWhile (· ≠ ' ')).contains '='

theorem holdsValue_append {head rest : List Char} (h : ∀ c ∈ head, Text.isBlank c = false) :
    holdsValue (head ++ ' ' :: rest) = rest.contains '=' := by
  have hsolid : ∀ c ∈ head, decide (c ≠ ' ') = true := by
    intro c hc
    have hne : c ≠ ' ' := fun heq => absurd (heq ▸ h c hc) (by decide)
    simpa using hne
  rw [holdsValue, List.dropWhile_append_of_pos hsolid]
  simp

theorem isLine_append {head rest : List Char} (h : ∀ c ∈ head, Text.isBlank c = false)
    (hrest : '\n' ∉ rest) : Text.IsLine (head ++ ' ' :: rest) :=
  ⟨by simp, by simp [Text.not_mem_of_solid h Text.isBlank_newline, hrest]⟩

theorem spec_of_constant (h : d.IsDecodable) :
    ∀ l ∈ d.constants.map Field.constantSignature, Text.IsLine l ∧ holdsValue l = true := by
  intro l hl
  obtain ⟨f, hf, rfl⟩ := List.mem_map.mp hl
  obtain ⟨hparsed, hsolid⟩ := h f (List.mem_filter.mp hf).1
  have hname := Text.not_mem_of_solid hparsed.name.solid Text.isBlank_newline
  rw [Field.constantSignature_eq, holdsValue_append hsolid]
  refine ⟨isLine_append hsolid ?_, by simp⟩
  simp [hname, hparsed.constantText.newline_not_mem]

theorem spec_of_member (h : d.IsDecodable) (hhash : ∀ f ∈ d.members, f.IsHashed hashOf) :
    ∀ l ∈ d.members.map fun f => (f.hashedMember hashOf).toList,
      Text.IsLine l ∧ holdsValue l = false := by
  intro l hl
  obtain ⟨f, hf, rfl⟩ := List.mem_map.mp hl
  obtain ⟨hmem, hkind⟩ := List.mem_filter.mp hf
  have hparsed := (h f hmem).parsed
  have hsolid := Field.solid_memberHead hparsed (by simpa using hkind) (hhash f hf)
  have hname := Text.not_mem_of_solid hparsed.name.solid Text.isBlank_newline
  -- What stands behind the first space is a name.
  rw [Field.toList_hashedMember, holdsValue_append hsolid]
  exact ⟨isLine_append hsolid hname, by simpa using hparsed.name.equals_not_mem⟩

theorem filter_hashedLines (h : d.IsDecodable) (hhash : ∀ f ∈ d.members, f.IsHashed hashOf) :
    (d.hashedLines hashOf).filter holdsValue = d.constants.map Field.constantSignature ∧
      (d.hashedLines hashOf).filter (fun l => !holdsValue l) =
        d.members.map fun f => (f.hashedMember hashOf).toList := by
  have hconst := spec_of_constant h
  have hmember := spec_of_member h hhash
  rw [hashedLines, List.filter_append, List.filter_append]
  constructor
  · rw [List.filter_eq_self.mpr fun l hl => (hconst l hl).2,
      List.filter_eq_nil_iff.mpr fun l hl => by simp [(hmember l hl).2], List.append_nil]
  · rw [List.filter_eq_nil_iff.mpr fun l hl => by simp [(hconst l hl).2],
      List.filter_eq_self.mpr fun l hl => by simp [(hmember l hl).2], List.nil_append]

theorem isLine_of_mem_hashedLines (h : d.IsDecodable) (hhash : ∀ f ∈ d.members, f.IsHashed hashOf) :
    ∀ l ∈ d.hashedLines hashOf, Text.IsLine l :=
  List.forall_mem_append.mpr ⟨fun l hl => (spec_of_constant h l hl).1,
    fun l hl => (spec_of_member h hhash l hl).1⟩

/-- The text of a definition tells its tree, up to the trees behind the hashes. -/
theorem expansion_eq_of_hashedText_eq (h : d.IsDecodable) (h' : d'.IsDecodable)
    (hhash : ∀ f ∈ d.members, f.IsHashed hashOf) (hhash' : ∀ f ∈ d'.members, f.IsHashed hashOf')
    (hdeeper : ∀ t ∈ d.references, ∀ t' ∈ d'.references, hashOf t = hashOf' t' → treeOf t = treeOf' t')
    (heq : d.hashedText hashOf = d'.hashedText hashOf') :
    d.expansion treeOf = d'.expansion treeOf' := by
  have hlines : d.hashedLines hashOf = d'.hashedLines hashOf' := by
    apply Text.unlines_inj (isLine_of_mem_hashedLines h hhash) (isLine_of_mem_hashedLines h' hhash')
    rw [hashedLines, hashedLines, ← Bundle.toList_hashedText, heq, Bundle.toList_hashedText]
  obtain ⟨hconst, hmember⟩ := filter_hashedLines h hhash
  obtain ⟨hconst', hmember'⟩ := filter_hashedLines h' hhash'
  rw [hlines, hconst'] at hconst
  rw [hlines, hmember'] at hmember
  rw [expansion, expansion, Expansion.node.injEq]
  constructor
  · refine map_eq_map_of_pairs (fun f hf f' hf' hsame => ?_) hconst.symm
    exact Field.expandedConstant_eq (h f (List.mem_filter.mp hf).1) (h' f' (List.mem_filter.mp hf').1)
      hsame
  · refine map_eq_map_of_pairs (fun f hf f' hf' hsame => ?_) hmember.symm
    obtain ⟨hfield, hkind⟩ := List.mem_filter.mp hf
    obtain ⟨hfield', hkind'⟩ := List.mem_filter.mp hf'
    exact Field.expandedMember_eq (h f hfield).parsed (h' f' hfield').parsed (by simpa using hkind)
      (by simpa using hkind') (hhash f hf) (hhash' f' hf')
      (fun hbuiltin hbuiltin' => hdeeper _ (typeName_mem_references hf hbuiltin) _
        (typeName_mem_references hf' hbuiltin')) hsame

theorem hashedText_eq_of_expansion_eq
    (hdeeper : ∀ t ∈ d.references, ∀ t' ∈ d'.references, treeOf t = treeOf' t' → hashOf t = hashOf' t')
    (heq : d.expansion treeOf = d'.expansion treeOf') :
    d.hashedText hashOf = d'.hashedText hashOf' := by
  rw [expansion, expansion, Expansion.node.injEq] at heq
  have hconst : d.constants.map Field.hashedConstant = d'.constants.map Field.hashedConstant := by
    refine map_eq_map_of_pairs (fun f _ f' _ hsame => ?_) heq.1
    obtain ⟨htype, hname, hvalue⟩ : f.typeName = f'.typeName ∧ f.name = f'.name ∧
        f.constantText = f'.constantText := by simpa [Field.expandedConstant] using hsame
    rw [Field.hashedConstant, htype, hname, hvalue, Field.hashedConstant]
  have hmember : d.members.map (Field.hashedMember hashOf) =
      d'.members.map (Field.hashedMember hashOf') := by
    refine map_eq_map_of_pairs (fun f hf f' hf' hsame => ?_) heq.2
    exact Field.hashedMember_eq (fun hbuiltin hbuiltin' => hdeeper _
      (typeName_mem_references hf hbuiltin) _ (typeName_mem_references hf' hbuiltin')) hsame
  rw [hashedText, hconst, hmember, hashedText]

end Definition
end MessageSchema
