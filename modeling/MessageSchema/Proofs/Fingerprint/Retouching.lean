import MessageSchema.Proofs.Fingerprint.Dependence
import Mathlib.Logic.Relation

/-!
Changes that no fingerprint sees. Constants may move past members, and every attribute that is not
hashed may change, in any definition of a bundle and as often as one likes. The fingerprints of the
bundle and of all names stay, and so do the errors.
-/
namespace MessageSchema

theorem forall₂_append_cons {α : Type} {R : α → α → Prop} [Std.Refl R] {a a' : α} (h : R a a')
    (before after : List α) : List.Forall₂ R (before ++ a :: after) (before ++ a' :: after) :=
  List.rel_append (List.forall₂_refl before) (.cons h (List.forall₂_refl after))

namespace Field

/-- A change of attributes that are not hashed: brackets of a constant or of a complex type, bounds,
defaults, the mark of complex types, and a literal that gives way to its text. -/
inductive Retouch : Field → Field → Prop
  | brackets (f : Field) (isArray : Bool) (arrayLength : Option UInt64) :
      f.isConstant = true ∨ TypeName.isBuiltin f.typeName = false →
      Retouch f { f with isArray, arrayLength }
  | bounds (f : Field) (upperBound arrayUpperBound : Option UInt64) :
      Retouch f { f with upperBound, arrayUpperBound }
  | fallback (f : Field) (defaultValue : Option Literal) : Retouch f { f with defaultValue }
  | mark (f : Field) (isComplex : Bool) : Retouch f { f with isComplex }
  | spellOut (f : Field) :
      Retouch f { f with value := none, valueText := some (String.ofList f.constantText) }

variable {f g : Field}

theorem Retouch.isConstant_eq (h : f.Retouch g) : g.isConstant = f.isConstant := by
  cases h <;> rfl

theorem Retouch.isConstantLike (h : f.Retouch g) : f.IsConstantLike g := by
  cases h with
  | spellOut => exact ⟨rfl, rfl, by simp [constantText]⟩
  | _ => exact ⟨rfl, rfl, rfl⟩

theorem Retouch.isMemberLike (h : f.Retouch g) (hmember : f.isConstant = false) :
    f.IsMemberLike g := by
  cases h with
  | brackets isArray arrayLength hkind =>
    have hcomplex : TypeName.isBuiltin f.typeName = false := by simpa [hmember] using hkind
    exact ⟨rfl, rfl, by simp [hcomplex], by simp [hcomplex]⟩
  | _ => exact ⟨rfl, rfl, fun _ => rfl, fun _ _ => rfl⟩

end Field

namespace Definition

/-- One field is retouched, or a constant moves past a member. -/
inductive Retouch : Definition → Definition → Prop
  | field (name : Option String) (before after : List Field) {f g : Field} : f.Retouch g →
      Retouch ⟨name, before ++ f :: after⟩ ⟨name, before ++ g :: after⟩
  | move (name : Option String) (before after : List Field) {f g : Field} :
      f.isConstant ≠ g.isConstant →
      Retouch ⟨name, before ++ f :: g :: after⟩ ⟨name, before ++ g :: f :: after⟩

variable {d e : Definition}

theorem Retouch.name_eq (h : d.Retouch e) : d.name = e.name := by
  cases h <;> rfl

theorem Retouch.isLike (h : d.Retouch e) : d.IsLike e := by
  cases h with
  | @field name before after f g hfg =>
    have hkind := hfg.isConstant_eq
    cases hconst : f.isConstant with
    | true =>
      rw [hconst] at hkind
      have hmembers : members ⟨name, before ++ f :: after⟩ = members ⟨name, before ++ g :: after⟩ := by
        simp [members, hconst, hkind]
      have hconstants := forall₂_append_cons hfg.isConstantLike
        (before.filter fun f => f.isConstant) (after.filter fun f => f.isConstant)
      exact ⟨by simpa [constants, hconst, hkind] using hconstants, hmembers ▸ List.forall₂_refl _⟩
    | false =>
      rw [hconst] at hkind
      have hconstants :
          constants ⟨name, before ++ f :: after⟩ = constants ⟨name, before ++ g :: after⟩ := by
        simp [constants, hconst, hkind]
      have hmembers := forall₂_append_cons (hfg.isMemberLike hconst)
        (before.filter fun f => !f.isConstant) (after.filter fun f => !f.isConstant)
      exact ⟨hconstants ▸ List.forall₂_refl _, by simpa [members, hconst, hkind] using hmembers⟩
  | @move name before after f g hkind =>
    have hconstants : constants ⟨name, before ++ f :: g :: after⟩ =
        constants ⟨name, before ++ g :: f :: after⟩ := by
      cases hf : f.isConstant <;> cases hg : g.isConstant <;> simp_all [constants]
    have hmembers : members ⟨name, before ++ f :: g :: after⟩ =
        members ⟨name, before ++ g :: f :: after⟩ := by
      cases hf : f.isConstant <;> cases hg : g.isConstant <;> simp_all [members]
    exact .of_eq hconstants hmembers

end Definition

namespace Bundle

def IsLike (b b' : Bundle) : Prop := List.Forall₂ (fun d d' => d.name = d'.name ∧ d.IsLike d') b b'

instance : Std.Refl fun d d' : Definition => d.name = d'.name ∧ d.IsLike d' where
  refl _ := ⟨rfl, .of_fields_eq rfl⟩

inductive Retouch : Bundle → Bundle → Prop
  | definition (before after : Bundle) {d d' : Definition} : d.Retouch d' →
      Retouch (before ++ d :: after) (before ++ d' :: after)

def HaveSameFingerprints (b b' : Bundle) : Prop :=
  b.fingerprint = b'.fingerprint ∧ ∀ name, b.fingerprintOf name = b'.fingerprintOf name

variable {b b' : Bundle}

theorem Retouch.isLike (h : b.Retouch b') : b.IsLike b' := by
  cases h with
  | definition before after hd =>
    exact forall₂_append_cons ⟨hd.name_eq, hd.isLike⟩ before after

theorem IsLike.rel_lookup? (h : b.IsLike b') (t : String) :
    Option.Rel Definition.IsLike (b.lookup? t) (b'.lookup? t) := by
  induction h with
  | nil => exact .none
  | @cons d d' b b' hd _ ih =>
    obtain ⟨hname, hlike⟩ := hd
    rw [lookup?_cons, lookup?_cons, ← hname]
    generalize Bundle.lookup? b t = found, Bundle.lookup? b' t = found' at ih
    cases ih with
    | some hrel => exact .some hrel
    | none =>
      by_cases hbears : d.name = some t
      · simpa [hbears] using hlike
      · simp [hbears]

theorem IsLike.digest_eq (h : b.IsLike b') (trail : List String) {d d' : Definition}
    (hd : d.IsLike d') : b.digest trail d = b'.digest trail d' :=
  digest_congr hd fun t _ => h.rel_lookup? t

theorem IsLike.haveSameFingerprints (h : b.IsLike b') : b.HaveSameFingerprints b' := by
  cases h with
  | nil => exact ⟨rfl, fun _ => rfl⟩
  | @cons root root' others others' hroot hothers =>
    have hlike : IsLike (root :: others) (root' :: others') := .cons hroot hothers
    refine ⟨by simp [fingerprint, hlike.digest_eq [] hroot.2], fun name => ?_⟩
    have hfound := hlike.rel_lookup? name
    unfold fingerprintOf
    generalize Bundle.lookup? (root :: others) name = found,
      Bundle.lookup? (root' :: others') name = found' at hfound
    cases hfound with
    | none => rfl
    | some hd => simp [hlike.digest_eq [name] hd]

/-- Fingerprints see what is hashed and nothing else. So they stay as they are, errors included, when
bundles are alike, and whatever definitions are retouched one after another. -/
theorem haveSameFingerprints_of_isLike :
    (∀ b b', IsLike b b' → HaveSameFingerprints b b') ∧
      ∀ b b', Relation.ReflTransGen Retouch b b' → HaveSameFingerprints b b' := by
  refine ⟨fun b b' h => h.haveSameFingerprints, fun b b' h => ?_⟩
  induction h with
  | refl => exact ⟨rfl, fun _ => rfl⟩
  | tail _ hstep ih =>
    have hlast := hstep.isLike.haveSameFingerprints
    exact ⟨ih.1.trans hlast.1, fun name => (ih.2 name).trans (hlast.2 name)⟩

/-- A literal that is spelled out and moved, and brackets behind a complex type; then, in the other
definition, a bound and a default. -/
theorem haveSameFingerprints_of_isLike_limit :
    let limit : Field := .plain "int32" "LIMIT"
    let point : Field := .plain "p/Point" "point"
    let x : Field := .plain "bool" "x"
    let root : Definition := ⟨none, [limit.asConstant "3", point.asArray (some 2)]⟩
    let before : Bundle := [⟨none, [point, limit.asLiteral (.int 3)]⟩, ⟨some "p/Point", [x]⟩]
    let after : Bundle := [root, ⟨some "p/Point", [x]⟩]
    let retouched : Bundle :=
      [root, ⟨some "p/Point", [{ x with upperBound := some 9, defaultValue := some (.bool true) }]⟩]
    IsLike before after ∧ HaveSameFingerprints before after ∧
      Relation.ReflTransGen Retouch after retouched ∧ HaveSameFingerprints after retouched := by
  intro limit point x root before after retouched
  have hlike : IsLike before after := by
    refine .cons ⟨rfl, ?_, ?_⟩ (.cons ⟨rfl, .of_fields_eq rfl⟩ .nil)
    · exact .cons ⟨rfl, rfl, by decide⟩ .nil
    · exact .cons ⟨rfl, rfl, by decide, by decide⟩ .nil
  have hbound : Retouch after [root, ⟨some "p/Point", [{ x with upperBound := some 9 }]⟩] :=
    .definition [root] [] (.field (some "p/Point") [] [] (.bounds x (some 9) none))
  have hdefault : Retouch [root, ⟨some "p/Point", [{ x with upperBound := some 9 }]⟩] retouched :=
    .definition [root] [] (.field (some "p/Point") [] [] (.fallback _ (some (.bool true))))
  have hretouched : Relation.ReflTransGen Retouch after retouched := .tail (.single hbound) hdefault
  exact ⟨hlike, haveSameFingerprints_of_isLike.1 _ _ hlike, hretouched,
    haveSameFingerprints_of_isLike.2 _ _ hretouched⟩

end Bundle
end MessageSchema
