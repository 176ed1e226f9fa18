import MessageSchema.Proofs.Bundle.Candidates
import MessageSchema.Proofs.Bundle.Layout

/-!
Reading as a run over the items of a text. An item closes the section at hand or adds to its
definition, and the first item at fault ends the run with its error. So whatever text follows, the
error stays.
-/
namespace MessageSchema

/-- The errors that a line can give, with no regard to other definitions. -/
def SchemaError.IsMalformed : SchemaError → Prop
  | malformedField _ => True
  | malformedSection _ => True
  | _ => False

namespace Bundle

/-- What has been read so far: the definitions of the closed sections, and what there is of the
definition of the section at hand. -/
structure Progress where
  closed : Bundle
  current : Definition

namespace Progress

def start : Progress := ⟨[], { name := none, fields := [] }⟩

def step (p : Progress) : Section.Item → Except SchemaError Progress
  | .boundary => .ok ⟨p.closed ++ [p.current], { name := none, fields := [] }⟩
  | .content line => (p.current.putLine line).map fun current => { p with current }

def definitions (p : Progress) : Bundle := p.closed ++ [p.current]

/-- A run goes on with the section at hand and then reads the other sections, one after another. -/
theorem map_definitions_foldlM {items : List Section.Item} {first : List Line}
    {others : List (List Line)} (h : Section.contents items = first :: others) (p : Progress) :
    (items.foldlM step p).map definitions = do
      let d ← first.foldlM Definition.putLine p.current
      let ds ← others.mapM (List.foldlM Definition.putLine { name := none, fields := [] })
      return p.closed ++ d :: ds := by
  -- A boundary changes the progress, so the induction is for every one.
  induction items generalizing first others p with
  | nil =>
    obtain ⟨rfl, rfl⟩ := List.cons.inj h
    rfl
  | cons item items ih =>
    obtain ⟨second, rest, hcut⟩ := List.exists_cons_of_ne_nil (Section.contents_ne_nil items)
    cases item with
    | boundary =>
      rw [Section.contents_boundary, hcut] at h
      obtain ⟨rfl, rfl⟩ := List.cons.inj h
      have hnext := ih hcut ⟨p.closed ++ [p.current], { name := none, fields := [] }⟩
      refine hnext.trans ?_
      rw [List.foldlM_nil, List.mapM_cons]
      cases second.foldlM Definition.putLine { name := none, fields := [] } with
      | error e => rfl
      | ok d =>
        cases rest.mapM (List.foldlM Definition.putLine { name := none, fields := [] }) with
        | error e => rfl
        | ok ds => exact congrArg Except.ok (List.append_assoc ..)
    | content line =>
      rw [Section.contents_content, hcut] at h
      obtain ⟨rfl, rfl⟩ := List.cons.inj h
      rw [List.foldlM_cons, List.foldlM_cons, step]
      cases p.current.putLine line with
      | error e => rfl
      | ok current => exact ih hcut { p with current }

theorem ofTextAsWritten_eq_run (text : String) :
    ofTextAsWritten text =
      ((Section.items text.toList).foldlM step start).map fun p => p.definitions.eraseDups := by
  obtain ⟨first, others, hcut⟩ :=
    List.exists_cons_of_ne_nil (Section.contents_ne_nil (Section.items text.toList))
  have hrun := map_definitions_foldlM hcut start
  have hread : ofContents (first :: others) =
      (((Section.items text.toList).foldlM step start).map definitions).map List.eraseDups := by
    rw [hrun, ofContents, List.mapM_cons]
    rfl
  rw [ofTextAsWritten_eq, hcut, hread]
  cases (Section.items text.toList).foldlM step start <;> rfl

/-- The error is that of a line, and all that stands before this line can be read. -/
def IsFirstFault (items : List Section.Item) (error : SchemaError) : Prop :=
  ∃ before line after p, items = before ++ .content line :: after ∧
    before.foldlM step start = .ok p ∧ p.current.putLine line = .error error

theorem IsFirstFault.append {items : List Section.Item} {error : SchemaError}
    (h : IsFirstFault items error) (more : List Section.Item) :
    IsFirstFault (items ++ more) error := by
  obtain ⟨before, line, after, p, rfl, hbefore, hline⟩ := h
  exact ⟨before, line, after ++ more, p, by simp, hbefore, hline⟩

theorem foldlM_step_eq_error_iff {items : List Section.Item} {error : SchemaError} :
    items.foldlM step start = .error error ↔ IsFirstFault items error := by
  rw [Attempts.foldlM_eq_error_iff]
  constructor
  · rintro ⟨before, item, after, p, hitems, hbefore, hitem⟩
    cases item with
    | boundary => cases hitem
    | content line => exact ⟨before, line, after, p, hitems, hbefore, Attempts.map_eq_error_iff.mp hitem⟩
  · rintro ⟨before, line, after, p, hitems, hbefore, hline⟩
    exact ⟨before, .content line, after, p, hitems, hbefore, Attempts.map_eq_error_iff.mpr hline⟩

end Progress

variable {b : Bundle} {text : String} {error : SchemaError} {keepsTypeNames : Bool}

/-- Reading fails with the error of the first line at fault, and only then. -/
theorem ofTextAsWritten_eq_error_iff : ofTextAsWritten text = .error error ↔
    Progress.IsFirstFault (Section.items text.toList) error := by
  rw [Progress.ofTextAsWritten_eq_run, Attempts.map_eq_error_iff,
    Progress.foldlM_step_eq_error_iff]

theorem not_isMalformed_of_resolve (h : b.resolve = .error error) : ¬ error.IsMalformed := by
  obtain ⟨_, d, _, _, f, _, -, -, -, -, -, -, hfault⟩ := failsWith_of_resolve h
  rcases hfault with ⟨-, rfl⟩ | ⟨-, rfl⟩ <;> exact id

theorem ofText_eq_error_iff_of_isMalformed (hmalformed : error.IsMalformed) :
    ofText keepsTypeNames text = .error error ↔
      Progress.IsFirstFault (Section.items text.toList) error := by
  rw [← ofTextAsWritten_eq_error_iff]
  constructor
  · intro h
    rcases Attempts.bind_eq_error_iff.mp h with hwritten | ⟨written, -, hfinish⟩
    · exact hwritten
    · cases keepsTypeNames with
      | true => cases hfinish
      | false => exact absurd hmalformed (not_isMalformed_of_resolve hfinish)
  · exact fun h => Attempts.bind_eq_error_iff.mpr (.inl h)

/-- The first line at fault decides the error for good. Whatever text follows on the next line, the
longer text fails with the same error. -/
theorem ofText_append_of_isMalformed (hmalformed : error.IsMalformed)
    (h : ofText keepsTypeNames text = .error error) (more : String) :
    ofText keepsTypeNames (text ++ "\n" ++ more) = .error error := by
  have hitems : Section.items (text ++ "\n" ++ more).toList =
      Section.items text.toList ++ Section.items more.toList := by
    rw [← Section.items_append_newline]
    simp
  rw [ofText_eq_error_iff_of_isMalformed hmalformed] at h ⊢
  rw [hitems]
  exact h.append _

/-- A second header at the end of a text, after a type that is nowhere defined. What follows has a
separator, an empty header and a line without a name. -/
theorem ofText_append_of_second_header :
    let text := "Point p\n==\nMSG: a/A\nMSG: a/B"
    let error := SchemaError.malformedSection (.secondName "a/A" "a/B")
    error.IsMalformed ∧ ofText false text = .error error ∧
      ofText false (text ++ "\n" ++ "==\nMSG:\nint32") = .error error := by
  intro text error
  have h : ofText false text = .error error := by
    subst text error
    rfl
  have hmalformed : error.IsMalformed := trivial
  exact ⟨hmalformed, h, ofText_append_of_isMalformed hmalformed h _⟩

end Bundle
end MessageSchema
