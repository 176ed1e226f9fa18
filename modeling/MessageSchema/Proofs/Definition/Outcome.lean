import MessageSchema.Proofs.Definition.Parsed

/-!
What lines come to when a definition is read from them. They make up a definition when one of them
at most is a header and every other one declares a field; where the header stands does not matter.
Otherwise the first line at fault decides the error.
-/
namespace MessageSchema
namespace Definition

def isHeader (line : Line) : Bool := headerMark.isPrefixOf line

/-- What a header has behind its mark, without blanks at the ends. -/
def remainder (line : Line) : Line := Text.trim (line.drop headerMark.length)

def headers (ls : List Line) : List Line := ls.filter isHeader

def declarations (ls : List Line) : List Line := ls.filter fun line => !isHeader line

structure AreSound (ls : List Line) : Prop where
  single : (headers ls).length ≤ 1
  named : ∀ line ∈ headers ls, remainder line ≠ []
  declared : ∀ line ∈ declarations ls, ∃ f, Field.ofLine line = .ok f

/-- The definition has the name of the header, if there is one, and the fields that the other lines
declare, one for each. -/
structure IsMadeUp (d : Definition) (ls : List Line) : Prop where
  name : d.name = (headers ls).head?.map fun line => String.ofList (remainder line)
  fields : d.fields.map .ok = (declarations ls).map Field.ofLine

inductive IsFault (before : List Line) (line : Line) : SchemaError → Prop
  | field : isHeader line = false → (¬ ∃ f, Field.ofLine line = .ok f) →
      IsFault before line (.malformedField (String.ofList line))
  | emptyName : isHeader line = true → remainder line = [] →
      IsFault before line (.malformedSection .emptyName)
  | secondName (first : Line) : first ∈ headers before → isHeader line = true →
      remainder line ≠ [] → IsFault before line
        (.malformedSection (.secondName (String.ofList (remainder first)) (String.ofList (remainder line))))

/-- The error is that of a line, and there is nothing wrong with the lines before it. -/
def IsFirstFault (ls : List Line) (error : SchemaError) : Prop :=
  ∃ before line after, ls = before ++ line :: after ∧ AreSound before ∧ IsFault before line error

variable {d d' : Definition} {ls before after : List Line} {line : Line} {error : SchemaError}

theorem headerName?_eq (line : Line) :
    headerName? line = if isHeader line then some (remainder line) else none := by
  by_cases h : isHeader line = true
  · obtain ⟨rest, rfl⟩ := List.isPrefixOf_iff_prefix.mp h
    simp [headerName?_append, h, remainder]
  · have hmark : ¬ headerMark <+: line := fun hp => h (List.isPrefixOf_iff_prefix.mpr hp)
    simp [headerName?_eq_none_iff.mpr hmark, h]

theorem putLine_eq (d : Definition) (line : Line) :
    d.putLine line = if isHeader line then d.putName (remainder line)
      else (Field.ofLine line).map fun f => { d with fields := d.fields ++ [f] } := by
  by_cases h : isHeader line = true <;> simp [putLine, headerName?_eq, h]

theorem ofLine_eq_error (h : Field.ofLine line = .error error) :
    (¬ ∃ f, Field.ofLine line = .ok f) ∧ error = .malformedField (String.ofList line) := by
  refine ⟨by simp [h], ?_⟩
  unfold Field.ofLine at h
  split at h
  · cases h
  · exact (Except.error.inj h).symm

@[simp] theorem headers_append (ls ls' : List Line) : headers (ls ++ ls') = headers ls ++ headers ls' := by
  simp [headers]

@[simp] theorem declarations_append (ls ls' : List Line) :
    declarations (ls ++ ls') = declarations ls ++ declarations ls' := by
  simp [declarations]

theorem headers_cons (line : Line) (ls : List Line) :
    headers (line :: ls) = if isHeader line then line :: headers ls else headers ls := by
  simp [headers, List.filter_cons]

theorem declarations_cons (line : Line) (ls : List Line) :
    declarations (line :: ls) = if isHeader line then declarations ls else line :: declarations ls := by
  cases h : isHeader line <;> simp [declarations, h]

@[simp] theorem headers_nil : headers [] = [] := rfl

@[simp] theorem declarations_nil : declarations [] = [] := rfl

theorem IsFault.not_areSound (h : IsFault before line error) (after : List Line) :
    ¬ AreSound (before ++ line :: after) := by
  intro hsound
  cases h with
  | field hline hfield => exact hfield (hsound.declared line (by simp [declarations_cons, hline]))
  | emptyName hline hempty => exact hsound.named line (by simp [headers_cons, hline]) hempty
  | secondName first hfirst hline hne =>
    have hlength := hsound.single
    have hpos := List.length_pos_of_mem hfirst
    simp [headers_cons, hline] at hlength
    omega

/-! One line more -/

theorem isMadeUp_nil : IsMadeUp { name := none, fields := [] } [] := ⟨rfl, rfl⟩

theorem areSound_nil : AreSound [] := ⟨by simp, by simp, by simp⟩

theorem AreSound.append_declaration (h : AreSound ls) (hline : isHeader line = false) {f : Field}
    (hfield : Field.ofLine line = .ok f) : AreSound (ls ++ [line]) where
  single := by simpa [headers_cons, hline] using h.single
  named := by simpa [headers_cons, hline] using h.named
  declared := by
    intro l hl
    simp only [declarations_append, declarations_cons, hline] at hl
    rcases List.mem_append.mp hl with hl | hl
    · exact h.declared l hl
    · obtain rfl : l = line := by simpa using hl
      exact ⟨f, hfield⟩

theorem IsMadeUp.append_declaration (h : d.IsMadeUp ls) (hline : isHeader line = false) {f : Field}
    (hfield : Field.ofLine line = .ok f) :
    IsMadeUp { d with fields := d.fields ++ [f] } (ls ++ [line]) where
  name := by simpa [headers_cons, hline] using h.name
  fields := by simp [declarations_cons, hline, h.fields, hfield]

theorem IsMadeUp.name_eq_none_iff (h : d.IsMadeUp ls) : d.name = none ↔ headers ls = [] := by
  simp [h.name]

theorem AreSound.append_header (h : AreSound ls) (hfirst : headers ls = [])
    (hline : isHeader line = true) (hne : remainder line ≠ []) : AreSound (ls ++ [line]) where
  single := by simp [headers_cons, hline, hfirst]
  named := by simpa [headers_cons, hline, hfirst] using hne
  declared := by simpa [declarations_cons, hline] using h.declared

theorem IsMadeUp.append_header (h : d.IsMadeUp ls) (hfirst : headers ls = [])
    (hline : isHeader line = true) :
    IsMadeUp { d with name := some (String.ofList (remainder line)) } (ls ++ [line]) where
  name := by simp [headers_cons, hline, hfirst]
  fields := by simpa [declarations_cons, hline] using h.fields

/-- One line more: it is as good as those before it, or it is at fault. -/
theorem putLine_spec (hsound : AreSound ls) (hd : d.IsMadeUp ls) (line : Line) :
    match d.putLine line with
    | .ok d' => AreSound (ls ++ [line]) ∧ d'.IsMadeUp (ls ++ [line])
    | .error error => IsFault ls line error := by
  rw [putLine_eq]
  cases hline : isHeader line with
  | false =>
    cases hfield : Field.ofLine line with
    | ok f => exact ⟨hsound.append_declaration hline hfield, hd.append_declaration hline hfield⟩
    | error error =>
      obtain ⟨hnone, rfl⟩ := ofLine_eq_error hfield
      exact .field hline hnone
  | true =>
    by_cases hempty : remainder line = []
    · simpa [putName, hempty] using IsFault.emptyName hline hempty
    · cases hname : d.name with
      | none =>
        have hfirst := hd.name_eq_none_iff.mp hname
        simpa [putName, hempty, hname] using
          And.intro (hsound.append_header hfirst hline hempty) (hd.append_header hfirst hline)
      | some name =>
        have hgiven := hd.name
        rw [hname] at hgiven
        obtain ⟨first, hhead, rfl⟩ := Option.map_eq_some_iff.mp hgiven.symm
        have hmem : first ∈ headers ls := List.mem_of_mem_head? hhead
        simpa [putName, hempty, hname] using IsFault.secondName first hmem hline hempty

/-! All lines -/

/-- Lines that are read one by one make up what has been read. -/
theorem areSound_of_foldlM (h : ls.foldlM putLine { name := none, fields := [] } = .ok d) :
    AreSound ls ∧ d.IsMadeUp ls := by
  -- A line is judged by those before it, so the induction takes the lines from the end.
  induction ls using List.reverseRecOn generalizing d with
  | nil =>
    obtain rfl := Attempts.pure_eq_ok_iff.mp h
    exact ⟨areSound_nil, isMadeUp_nil⟩
  | append_singleton ls line ih =>
    rw [List.foldlM_append] at h
    obtain ⟨before, hbefore, hlast⟩ := Attempts.bind_eq_ok_iff.mp h
    obtain ⟨hsound, hmade⟩ := ih hbefore
    have hstep := putLine_spec hsound hmade line
    rw [List.foldlM_cons, Attempts.bind_eq_ok_iff] at hlast
    obtain ⟨last, hlast, hpure⟩ := hlast
    obtain rfl := Attempts.pure_eq_ok_iff.mp hpure
    rwa [hlast] at hstep

theorem isFirstFault_of_foldlM
    (h : ls.foldlM putLine { name := none, fields := [] } = .error error) : IsFirstFault ls error := by
  obtain ⟨before, line, after, d, rfl, hbefore, hline⟩ := Attempts.foldlM_eq_error_iff.mp h
  obtain ⟨hsound, hmade⟩ := areSound_of_foldlM hbefore
  have hstep := putLine_spec hsound hmade line
  rw [hline] at hstep
  exact ⟨before, line, after, rfl, hsound, hstep⟩

/-- Clean lines are read exactly when they make up a definition, and then the definition is that one.
Else the error is that of the first line at fault. -/
theorem ofLines_spec (lines : List Line) :
    match ofLines lines with
    | .ok d => AreSound (cleanLines lines) ∧ d.IsMadeUp (cleanLines lines)
    | .error error => ¬ AreSound (cleanLines lines) ∧ IsFirstFault (cleanLines lines) error := by
  cases h : ofLines lines with
  | ok d => exact areSound_of_foldlM h
  | error error =>
    have hfault := isFirstFault_of_foldlM h
    refine ⟨?_, hfault⟩
    obtain ⟨before, line, after, hlines, -, hline⟩ := hfault
    rw [hlines]
    exact hline.not_areSound after

/-- A header behind a field names the definition all the same. A second header is at fault before the
line that declares nothing, but a header without a name would be at fault for this. -/
example : ofLines ["int32 x # first".toList, "  ".toList, " MSG: pkg/A ".toList] =
      .ok ⟨some "pkg/A", [.plain "int32" "x"]⟩ ∧
    ofLines ["MSG:a/A".toList, "MSG: a/B".toList, "int32".toList] =
      .error (.malformedSection (.secondName "a/A" "a/B")) ∧
    ofLines ["MSG:a/A".toList, "MSG: # none".toList] = .error (.malformedSection .emptyName) :=
  ⟨rfl, rfl, rfl⟩

end Definition
end MessageSchema
