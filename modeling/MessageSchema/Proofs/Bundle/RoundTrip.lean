import MessageSchema.Proofs.Bundle.Reread
import MessageSchema.Proofs.Definition.Repetition
import MessageSchema.Proofs.TypeName

/-!
The round trip of a bundle through its canonical text. Constants come back in front of the members
with the text of their value, members come back as they were, and of equal definitions the first.
-/
namespace MessageSchema

namespace Field

def bareConstant (f : Field) : Field :=
  (plain f.typeName f.name).asConstant (String.ofList f.constantText)

/-- A field that the canonical text says all about. -/
structure IsWritable (f : Field) : Prop where
  typeName : TypeName.IsToken f.typeName
  name : IsToken f.name
  constant : f.isConstant = true →
    f.typeName ≠ "char" ∧ f.typeName ≠ "byte" ∧ Text.IsPhrase f.constantText
  member : f.isConstant = false →
    f.upperBound = none ∧ f.arrayUpperBound = none ∧ f.defaultValue = none ∧
      f.value = none ∧ f.valueText = none
  isComplex : f.isConstant = false → f.isComplex = !TypeName.isBuiltin f.typeName
  single : f.isConstant = false → f.isArray = false →
    f.arrayLength = none ∧ f.typeName ≠ "char" ∧ f.typeName ≠ "byte"

instance (f : Field) : Decidable f.IsWritable :=
  decidable_of_iff (TypeName.IsToken f.typeName ∧ IsToken f.name ∧
      (f.isConstant = true →
        f.typeName ≠ "char" ∧ f.typeName ≠ "byte" ∧ Text.IsPhrase f.constantText) ∧
      (f.isConstant = false →
        f.upperBound = none ∧ f.arrayUpperBound = none ∧ f.defaultValue = none ∧
          f.value = none ∧ f.valueText = none) ∧
      (f.isConstant = false → f.isComplex = !TypeName.isBuiltin f.typeName) ∧
      (f.isConstant = false → f.isArray = false →
        f.arrayLength = none ∧ f.typeName ≠ "char" ∧ f.typeName ≠ "byte"))
    ⟨fun ⟨h₁, h₂, h₃, h₄, h₅, h₆⟩ => ⟨h₁, h₂, h₃, h₄, h₅, h₆⟩,
      fun ⟨h₁, h₂, h₃, h₄, h₅, h₆⟩ => ⟨h₁, h₂, h₃, h₄, h₅, h₆⟩⟩

end Field

namespace Definition

/-- The definition with its constants, bare, in front of its members. -/
def canonical (d : Definition) : Definition :=
  { name := d.name, fields := d.constants.map Field.bareConstant ++ d.members }

end Definition

namespace Bundle

/-- A root without a name, and others with names that a header can give. -/
structure IsWritable (root : Definition) (others : Bundle) : Prop where
  root_name : root.name = none
  name : ∀ d ∈ others, ∃ name ∈ d.name, name.toList ≠ [] ∧ Text.IsPhrase name.toList
  fields : ∀ d ∈ root :: others, ∀ f ∈ d.fields, f.IsWritable

instance (root : Definition) (others : Bundle) : Decidable (IsWritable root others) :=
  decidable_of_iff (root.name = none ∧
      (∀ d ∈ others, ∃ name ∈ d.name, name.toList ≠ [] ∧ Text.IsPhrase name.toList) ∧
      ∀ d ∈ root :: others, ∀ f ∈ d.fields, f.IsWritable)
    ⟨fun ⟨h₁, h₂, h₃⟩ => ⟨h₁, h₂, h₃⟩, fun ⟨h₁, h₂, h₃⟩ => ⟨h₁, h₂, h₃⟩⟩

def canonical (b : Bundle) : Bundle := b.map Definition.canonical

end Bundle

namespace Field

variable {f : Field}

theorem IsWritable.isLegible (h : IsWritable f) : IsLegible f where
  typeName_ne := h.typeName.ne_empty
  typeName := h.typeName.isPhrase
  name := h.name
  constantText hconst := (h.constant hconst).2.2
  unbounded hmember := ⟨(h.member hmember).1, (h.member hmember).2.1⟩
  noDefault hmember := (h.member hmember).2.2.1

theorem IsWritable.isDeclarable (h : IsWritable f) (hmember : f.isConstant = false) :
    IsDeclarable f where
  isComplex := h.isComplex hmember
  value := (h.member hmember).2.2.2.1
  valueText := (h.member hmember).2.2.2.2
  arrayLength hsingle := (h.single hmember hsingle).1
  spelling hsingle := TypeName.normalize_of_ne (h.single hmember hsingle).2.1
    (h.single hmember hsingle).2.2

theorem IsWritable.normalize_typeName (h : IsWritable f) (hconst : f.isConstant = true) :
    TypeName.normalize f.typeName = f.typeName :=
  TypeName.normalize_of_ne (h.constant hconst).1 (h.constant hconst).2.1

end Field

namespace Definition

variable {d : Definition}

def IsSpelledOut (d : Definition) : Prop :=
  ∀ f ∈ d.constants, TypeName.normalize f.typeName = f.typeName

/-- Without aliases in front of constants, what is read again is the canonical form. -/
theorem reread_eq_canonical (h : d.IsSpelledOut) : d.reread = d.canonical := by
  have hconst : d.constants.map Field.reread = d.constants.map Field.bareConstant := by
    refine List.map_congr_left fun f hf => ?_
    rw [Field.reread, if_pos (List.mem_filter.mp hf).2, h f hf, Field.bareConstant]
  rw [reread, canonical, printedFields, List.map_append, hconst, map_reread_members]

end Definition

namespace Bundle

variable {root : Definition} {others : Bundle}

theorem IsWritable.isLegible (h : IsWritable root others) : IsLegible (root :: others) where
  fields d hd f hf := (h.fields d hd f hf).isLegible
  name := by
    refine List.forall_mem_cons.mpr ⟨fun name hname => ?_, fun d hd name hname => ?_⟩
    · rw [h.root_name] at hname
      cases hname
    · obtain ⟨name', hname', -, hphrase⟩ := h.name d hd
      obtain rfl : name' = name := Option.some.inj (hname' ▸ hname)
      exact hphrase

theorem IsWritable.reread_eq_canonical (h : IsWritable root others) :
    reread (root :: others) = canonical (root :: others) := by
  have hconst : ∀ d ∈ root :: others, d.reread = d.canonical := fun d hd =>
    Definition.reread_eq_canonical fun f hf =>
      (h.fields d hd f (List.mem_filter.mp hf).1).normalize_typeName (List.mem_filter.mp hf).2
  have hroot : root.rereadRoot = root.canonical := by
    rw [Definition.rereadRoot, hconst root List.mem_cons_self, ← h.root_name]
    rfl
  rw [reread, canonical, List.map_cons, hroot]
  exact congrArg _ (List.map_congr_left fun d hd => hconst d (List.mem_cons_of_mem root hd))

theorem IsWritable.isLiteralFree (h : IsWritable root others) :
    ∀ d ∈ canonical (root :: others), d.IsLiteralFree := by
  intro d hd f hf
  obtain ⟨d, hmem, rfl⟩ := List.mem_map.mp hd
  rw [Definition.canonical, List.mem_append] at hf
  rcases hf with hf | hf
  · obtain ⟨g, -, rfl⟩ := List.mem_map.mp hf
    exact ⟨rfl, rfl⟩
  · obtain ⟨hfields, hkind⟩ := List.mem_filter.mp hf
    have hmember := (h.fields d hmem f hfields).member (by simpa using hkind)
    exact ⟨hmember.2.2.2.1, hmember.2.2.1⟩

/-- The canonical text of a writable bundle is read as the canonical form of the bundle, without
repetitions. What is read is resolved unless type names are to be kept. -/
theorem parse_print (h : IsWritable root others) :
    parse { keepsTypeNames := true } (print (root :: others)) =
        .ok (canonical (root :: others)).eraseDups ∧
      parse {} (print (root :: others)) = resolve (canonical (root :: others)).eraseDups ∧
      ((canonical (root :: others)).Nodup →
        parse { keepsTypeNames := true } (print (root :: others)) =
          .ok (canonical (root :: others))) := by
  have hread : ∀ d ∈ root :: others, d.IsReadable := fun d hd =>
    { typeName := fun f hf => (h.fields d hd f hf).typeName
      member := fun f hf => (h.fields d hd f hf).isDeclarable }
  have hnamed : ∀ d ∈ others, ∃ name, d.name = some name ∧ name.toList ≠ [] := by
    intro d hd
    obtain ⟨name, hname, hne, -⟩ := h.name d hd
    exact ⟨name, hname, hne⟩
  have hwritten : ofTextAsWritten (print (root :: others)) =
      .ok (canonical (root :: others)).eraseDups := by
    rw [ofTextAsWritten_print h.isLegible hread hnamed, h.reread_eq_canonical]
  have hkept : parse { keepsTypeNames := true } (print (root :: others)) =
      .ok (canonical (root :: others)).eraseDups := by
    simp only [parse, ofText, hwritten, Attempts.ok_bind]
    rfl
  refine ⟨hkept, ?_, fun hnodup => ?_⟩
  · simp only [parse, ofText, hwritten, Attempts.ok_bind]
    rfl
  · rw [hkept, eraseDups_eq_self_iff.mpr ((isDistinct_iff_nodup h.isLiteralFree).mpr hnodup)]

/-- A constant with a literal and brackets, and a definition that is repeated with its fields in
another order. -/
theorem parse_print_repeated :
    let root : Definition :=
      { name := none
        fields := [.plain "pkg/Point" "origin",
          ((Field.plain "int8" "LIMITS").asArray (some 2)).asLiteral (.list [.int (-1), .bool true]),
          (Field.plain "char" "label").asArray (some 16)] }
    let others : Bundle :=
      [ { name := some "pkg/Point", fields := [.plain "float64" "x", (Field.plain "string" "UNIT").asConstant ""] },
        { name := some "pkg/Point", fields := [(Field.plain "string" "UNIT").asConstant "", .plain "float64" "x"] } ]
    IsWritable root others ∧
      parse { keepsTypeNames := true } (print (root :: others)) = .ok
        [ { name := none
            fields := [(Field.plain "int8" "LIMITS").asConstant "[-1, true]", .plain "pkg/Point" "origin",
              (Field.plain "char" "label").asArray (some 16)] },
          { name := some "pkg/Point"
            fields := [(Field.plain "string" "UNIT").asConstant "", .plain "float64" "x"] } ] := by
  intro root others
  have h : IsWritable root others := by decide +kernel
  exact ⟨h, (parse_print h).1.trans rfl⟩

end Bundle
end MessageSchema
