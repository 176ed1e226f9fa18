import MessageSchema.Proofs.Bundle.Renaming
import MessageSchema.Proofs.Bundle.Resolution

/-!
The lookup rules as a relation between definitions. A type that is written in a definition may mean
certain others; resolution succeeds exactly when every complex type means a single definition, one
with a name, and else it fails at the first type that does not and leaves the bundle as it was.
-/
namespace MessageSchema

namespace Definition

def LiesIn (d : Definition) (package : String) : Prop :=
  package ≠ "" ∧ ∃ short : String, '/' ∉ short.toList ∧ d.name = some (package ++ "/" ++ short)

/-- A type name that is looked up in packages. -/
def IsShortName (written : String) : Prop :=
  written ≠ "" ∧ '/' ∉ written.toList ∧ written ≠ "Header"

/-- The definitions that a type may mean where it is written in the definition `d`. -/
inductive MayMean (d : Definition) : String → Definition → Prop
  | empty {e : Definition} : e.name = none ∨ e.name = some "" → MayMean d "" e
  | full {written : String} {e : Definition} :
    '/' ∈ written.toList → e.name = some written → MayMean d written e
  | header {e : Definition} : e.name = some "std_msgs/Header" → MayMean d "Header" e
  | inPackage {written package : String} {e : Definition} :
    IsShortName written → d.LiesIn package → e.name = some (package ++ "/" ++ written) →
      MayMean d written e
  | anywhere {written before : String} {e : Definition} :
    IsShortName written → (∀ package, ¬ d.LiesIn package) →
      e.name = some (before ++ "/" ++ written) → MayMean d written e

variable {d e : Definition} {written package : String}

theorem package?_eq_some_iff : d.package? = some package ↔ d.LiesIn package := by
  rw [package?, Option.bind_eq_some_iff]
  constructor
  · rintro ⟨name, hname, hpackage⟩
    obtain ⟨hne, short, hshort, rfl⟩ := TypeName.package?_eq_some_iff.mp hpackage
    exact ⟨hne, short, hshort, hname⟩
  · rintro ⟨hne, short, hshort, hname⟩
    exact ⟨_, hname, TypeName.package?_eq_some_iff.mpr ⟨hne, short, hshort, rfl⟩⟩

theorem package?_eq_none_iff : d.package? = none ↔ ∀ package, ¬ d.LiesIn package := by
  simp only [Option.eq_none_iff_forall_ne_some, ne_eq, package?_eq_some_iff]

theorem admits_inAnyPackage_iff {name : Option String} :
    (LookupRule.inAnyPackage written).admits name = true ↔
      ∃ before, name = some (before ++ "/" ++ written) := by
  simp only [LookupRule.admits, List.isSuffixOf_iff_suffix]
  constructor
  · rintro ⟨before, hbefore⟩
    cases name with
    | none => simp at hbefore
    | some name =>
      refine ⟨String.ofList before, congrArg some (String.toList_inj.mp ?_)⟩
      simpa using hbefore.symm
  · rintro ⟨before, rfl⟩
    exact ⟨before.toList, by simp⟩

theorem admits_exactly_iff (hne : written ≠ "") {name : Option String} :
    (LookupRule.exactly written).admits name = true ↔ name = some written := by
  cases name with
  | none => simp [LookupRule.admits, hne.symm]
  | some name => simp [LookupRule.admits]

theorem isQualified_iff : TypeName.isQualified written = true ↔ '/' ∈ written.toList := by
  simp [TypeName.isQualified]

theorem ofWritten_of_isShortName (h : IsShortName written) (package : Option String) :
    LookupRule.ofWritten package written =
      match package with
      | some package => .exactly (package ++ "/" ++ written)
      | none => .inAnyPackage written := by
  have hslash : ¬ TypeName.isQualified written = true := isQualified_iff.not.mpr h.2.1
  unfold LookupRule.ofWritten
  cases package <;> rw [if_neg h.1, if_neg hslash, if_neg h.2.2]

theorem admits_iff_mayMean :
    (LookupRule.ofWritten d.package? written).admits e.name = true ↔ d.MayMean written e := by
  constructor
  · intro h
    by_cases hempty : written = ""
    · subst hempty
      have hname : e.name.getD "" = "" := by simpa [LookupRule.ofWritten, LookupRule.admits] using h
      cases he : e.name with
      | none => exact .empty (.inl he)
      | some name => exact .empty (.inr (by simpa [he] using hname))
    by_cases hslash : TypeName.isQualified written = true
    · rw [LookupRule.ofWritten_of_isQualified hslash, admits_exactly_iff hempty] at h
      exact .full (isQualified_iff.mp hslash) h
    by_cases hheader : written = "Header"
    · subst hheader
      exact .header ((admits_exactly_iff (by decide)).mp h)
    have hshort : IsShortName written := ⟨hempty, isQualified_iff.not.mp hslash, hheader⟩
    rw [ofWritten_of_isShortName hshort] at h
    cases hpackage : d.package? with
    | some package =>
      rw [hpackage, admits_exactly_iff (by simp [hempty])] at h
      exact .inPackage hshort (package?_eq_some_iff.mp hpackage) h
    | none =>
      rw [hpackage, admits_inAnyPackage_iff] at h
      obtain ⟨before, hname⟩ := h
      exact .anywhere hshort (package?_eq_none_iff.mp hpackage) hname
  · intro h
    cases h with
    | empty h => rcases h with h | h <;> simp [LookupRule.ofWritten, LookupRule.admits, h]
    | full hslash hname =>
      have hqualified := isQualified_iff.mpr hslash
      rw [LookupRule.ofWritten_of_isQualified hqualified,
        admits_exactly_iff (TypeName.ne_empty_of_isQualified hqualified), hname]
    | header hname => exact (admits_exactly_iff (by decide)).mpr hname
    | inPackage hshort hpackage hname =>
      rw [ofWritten_of_isShortName hshort, package?_eq_some_iff.mpr hpackage,
        admits_exactly_iff (by simp [hshort.1]), hname]
    | anywhere hshort hpackage hname =>
      rw [ofWritten_of_isShortName hshort, package?_eq_none_iff.mpr hpackage,
        admits_inAnyPackage_iff]
      exact ⟨_, hname⟩

end Definition

namespace Bundle

variable {b b' : Bundle} {d d' e : Definition} {written name : String} {error : SchemaError}

def Means (b : Bundle) (d : Definition) (written : String) (e : Definition) : Prop :=
  d.MayMean written e ∧ ∃ before after, b = before ++ e :: after ∧
    ∀ other ∈ before ++ after, ¬ d.MayMean written other

def IsAmbiguous (b : Bundle) (d : Definition) (written : String) : Prop :=
  ∃ before e between e' after, b = before ++ e :: (between ++ e' :: after) ∧
    d.MayMean written e ∧ d.MayMean written e'

def Names (b : Bundle) (d : Definition) (written name : String) : Prop :=
  ∃ e, b.Means d written e ∧ e.name = some name ∧ name ≠ ""

theorem candidates_eq_singleton_iff :
    b.candidates (.ofWritten d.package? written) = [e] ↔ b.Means d written e := by
  simp only [candidates, List.filter_eq_cons_iff, List.filter_eq_nil_iff,
    Definition.admits_iff_mayMean, Means, List.mem_append]
  constructor
  · rintro ⟨before, after, rfl, hbefore, he, hafter⟩
    exact ⟨he, before, after, rfl, fun other hother => hother.elim (hbefore other) (hafter other)⟩
  · rintro ⟨he, before, after, rfl, hothers⟩
    exact ⟨before, after, rfl, fun other h => hothers other (.inl h), he,
      fun other h => hothers other (.inr h)⟩

theorem isAmbiguous_iff :
    b.IsAmbiguous d written ↔ 1 < (b.candidates (.ofWritten d.package? written)).length := by
  constructor
  · rintro ⟨before, e, between, e', after, rfl, he, he'⟩
    simp [candidates, Definition.admits_iff_mayMean.mpr he, Definition.admits_iff_mayMean.mpr he']
    omega
  · intro h
    cases hcandidates : b.candidates (.ofWritten d.package? written) with
    | nil => simp [hcandidates] at h
    | cons e others =>
      cases others with
      | nil => simp [hcandidates] at h
      | cons e' others =>
        obtain ⟨before, rest, rfl, -, he, hrest⟩ := List.filter_eq_cons_iff.mp hcandidates
        obtain ⟨between, after, rfl, -, he', -⟩ := List.filter_eq_cons_iff.mp hrest
        exact ⟨before, e, between, e', after, rfl, Definition.admits_iff_mayMean.mp he,
          Definition.admits_iff_mayMean.mp he'⟩

theorem fullName_eq_ok_iff_names :
    b.fullName d.package? written = .ok name ↔ b.Names d written name := by
  simp only [fullName_eq_ok_iff, candidates_eq_singleton_iff, Names]

theorem fullName_eq_error_iff : b.fullName d.package? written = .error error ↔
    (b.IsAmbiguous d written ∧ error = .ambiguousType written) ∨
    (¬ b.IsAmbiguous d written ∧ (∀ name, ¬ b.Names d written name) ∧
      error = .missingType written) := by
  simp only [isAmbiguous_iff, ← fullName_eq_ok_iff_names]
  rw [fullName]
  cases b.candidates (.ofWritten d.package? written) with
  | nil => simp [eq_comm]
  | cons e others =>
    cases others with
    | cons e' others => simp [eq_comm]
    | nil =>
      cases hname : e.name with
      | none => simp [hname, eq_comm]
      | some name =>
        by_cases hempty : name = ""
        · simp [hname, hempty, eq_comm]
        · simp [hname, hempty]

/-! Whole bundles -/

/-- A field before and after resolution: the type of a complex field gives way to the name of the
definition that it means, and nothing else changes. -/
def IsRenamed (b : Bundle) (d : Definition) (f f' : Field) : Prop :=
  if f.isComplex then ∃ name, b.Names d f.typeName name ∧ f' = { f with typeName := name } else f' = f

def AreNamed (b : Bundle) (d : Definition) (fs : List Field) : Prop :=
  ∀ f ∈ fs, f.isComplex = true → ∃ name, b.Names d f.typeName name

/-- The first complex field whose type does not mean a definition with a name tells the error. -/
def FailsWith (b : Bundle) (error : SchemaError) : Prop :=
  ∃ before d after fs f gs, b = before ++ d :: after ∧ d.fields = fs ++ f :: gs ∧
    (∀ c ∈ before, b.AreNamed c c.fields) ∧ b.AreNamed d fs ∧
    f.isComplex = true ∧ (∀ name, ¬ b.Names d f.typeName name) ∧
    ((b.IsAmbiguous d f.typeName ∧ error = .ambiguousType f.typeName) ∨
      (¬ b.IsAmbiguous d f.typeName ∧ error = .missingType f.typeName))

theorem resolveField_eq_ok_iff_isRenamed {f f' : Field} :
    b.resolveField d.package? f = .ok f' ↔ b.IsRenamed d f f' := by
  rw [resolveField_eq_ok_iff, IsRenamed]
  cases hcomplex : f.isComplex <;> simp [fullName_eq_ok_iff_names]

theorem exists_isRenamed_iff {f : Field} :
    (∃ f', b.IsRenamed d f f') ↔ (f.isComplex = true → ∃ name, b.Names d f.typeName name) := by
  simp only [IsRenamed]
  cases f.isComplex <;> simp

theorem areNamed_iff {fs : List Field} :
    b.AreNamed d fs ↔ ∀ f ∈ fs, ∃ f', b.resolveField d.package? f = .ok f' := by
  simp only [resolveField_eq_ok_iff_isRenamed, exists_isRenamed_iff, AreNamed]

theorem exists_resolveDefinition_iff :
    (∃ d', b.resolveDefinition d = .ok d') ↔ b.AreNamed d d.fields := by
  rw [areNamed_iff, ← Attempts.exists_mapM_eq_ok_iff]
  simp only [resolveDefinition, Attempts.map_eq_ok_iff]
  constructor
  · rintro ⟨d', fields, hfields, -⟩
    exact ⟨fields, hfields⟩
  · rintro ⟨fields, hfields⟩
    exact ⟨_, fields, hfields, rfl⟩

theorem resolveDefinition_eq_ok_iff_isRenamed : b.resolveDefinition d = .ok d' ↔
    d'.name = d.name ∧ List.Forall₂ (b.IsRenamed d) d.fields d'.fields := by
  simp only [resolveDefinition_eq_ok_iff, Attempts.mapM_eq_ok_iff, resolveField_eq_ok_iff_isRenamed]
  constructor
  · rintro ⟨fields, hfields, rfl⟩
    exact ⟨rfl, hfields⟩
  · rintro ⟨hname, hfields⟩
    refine ⟨d'.fields, hfields, ?_⟩
    rw [← hname]

theorem resolve_eq_ok_iff : b.resolve = .ok b' ↔
    List.Forall₂ (fun d d' => d'.name = d.name ∧ List.Forall₂ (b.IsRenamed d) d.fields d'.fields)
      b b' := by
  simp only [resolve, Attempts.mapM_eq_ok_iff, resolveDefinition_eq_ok_iff_isRenamed]

theorem exists_resolve_iff : (∃ b', b.resolve = .ok b') ↔ ∀ d ∈ b, b.AreNamed d d.fields := by
  simp only [resolve, Attempts.exists_mapM_eq_ok_iff, exists_resolveDefinition_iff]

theorem resolveField_eq_error_iff {package : Option String} {f : Field} :
    b.resolveField package f = .error error ↔
      f.isComplex = true ∧ b.fullName package f.typeName = .error error := by
  rw [resolveField]
  cases f.isComplex <;> simp [Attempts.map_eq_error_iff]

theorem failsWith_of_resolve (h : b.resolve = .error error) : b.FailsWith error := by
  obtain ⟨before, d, after, hb, hbefore, hd⟩ := Attempts.mapM_eq_error_iff.mp h
  simp only [exists_resolveDefinition_iff] at hbefore
  rw [resolveDefinition, Attempts.map_eq_error_iff] at hd
  obtain ⟨fs, f, gs, hfields, hfs, hf⟩ := Attempts.mapM_eq_error_iff.mp hd
  obtain ⟨hcomplex, hname⟩ := resolveField_eq_error_iff.mp hf
  have hnone : ∀ name, ¬ b.Names d f.typeName name := by
    intro name hnames
    cases (fullName_eq_ok_iff_names.mpr hnames).symm.trans hname
  refine ⟨before, d, after, fs, f, gs, hb, hfields, hbefore, areNamed_iff.mpr hfs, hcomplex, hnone, ?_⟩
  rcases fullName_eq_error_iff.mp hname with hambiguous | ⟨hunique, -, hmissing⟩
  · exact .inl hambiguous
  · exact .inr ⟨hunique, hmissing⟩

/-- Resolution in place succeeds exactly when the type of every complex field means a definition with
a name. It then puts those names in place of the types and changes nothing else; otherwise it fails
with the first type that is at fault, and the bundle stays as it was. -/
theorem resolveInPlace_spec (b : Bundle) :
    ((∃ b', resolveInPlace.run b = .ok () b') ↔ ∀ d ∈ b, b.AreNamed d d.fields) ∧
      match resolveInPlace.run b with
      | .ok _ b' => List.Forall₂ (fun d d' =>
          d'.name = d.name ∧ List.Forall₂ (b.IsRenamed d) d.fields d'.fields) b b'
      | .error error b' => b' = b ∧ b.FailsWith error := by
  rw [← exists_resolve_iff, run_resolveInPlace]
  cases h : b.resolve with
  | ok resolved => simp [resolve_eq_ok_iff.mp h]
  | error error => simp [failsWith_of_resolve h]

end Bundle
end MessageSchema
