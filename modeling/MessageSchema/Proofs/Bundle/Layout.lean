import MessageSchema.Bundle.Reader
import MessageSchema.Proofs.Bundle.Sections

/-!
What reading sees of a text. Comments, empty lines and blanks at the ends of lines are gone from the
items of a text, and the items alone decide what is read; so texts with the same items are read
alike, or fail alike.
-/
namespace MessageSchema

namespace Section

/-- What a line says: that a section ends here, or something within its section. -/
inductive Item where
  | boundary
  | content (line : Line)
deriving Repr, DecidableEq

namespace Item

def isBoundary : Item → Bool
  | boundary => true
  | content _ => false

def content? : Item → Option Line
  | boundary => none
  | content line => some line

/-- Unless it is a separator, a line says what is left of it without its comment, if anything is. -/
def ofLine? (line : Line) : Option Item :=
  if isSeparator line then some boundary
  else if Text.clean line = [] then none
  else some (content (Text.clean line))

theorem ofLine?_of_isSeparator {line : Line} (h : isSeparator line = true) :
    ofLine? line = some boundary := by
  rw [ofLine?, if_pos h]

theorem ofLine?_of_clean_eq_nil {line : Line} (h : isSeparator line = false)
    (hclean : Text.clean line = []) : ofLine? line = none := by
  rw [ofLine?, if_neg (by simp [h]), if_pos hclean]

theorem ofLine?_of_clean_ne_nil {line : Line} (h : isSeparator line = false)
    (hclean : Text.clean line ≠ []) : ofLine? line = some (content (Text.clean line)) := by
  rw [ofLine?, if_neg (by simp [h]), if_neg hclean]

end Item

def items (text : List Char) : List Item :=
  ((Text.lines text).map Text.trim).filterMap Item.ofLine?

theorem items_append_newline (before after : List Char) :
    items (before ++ '\n' :: after) = items before ++ items after := by
  simp only [items, Text.lines, List.splitOn_append_cons_self, List.map_append,
    List.filterMap_append]

def contents (items : List Item) : List (List Line) :=
  (items.splitOnP Item.isBoundary).map (List.filterMap Item.content?)

theorem contents_ne_nil (items : List Item) : contents items ≠ [] := by
  simp [contents]

theorem contents_boundary (items : List Item) :
    contents (.boundary :: items) = [] :: contents items := by
  rw [contents, List.splitOnP_cons_eq_if_modifyHead]
  rfl

theorem contents_content (line : Line) (items : List Item) :
    contents (.content line :: items) = (contents items).modifyHead (line :: ·) := by
  obtain ⟨first, others, hcut⟩ :=
    List.exists_cons_of_ne_nil (List.splitOnP_ne_nil Item.isBoundary items)
  rw [contents, contents, List.splitOnP_cons_eq_if_modifyHead, hcut]
  rfl

theorem clean_of_not_counts {line : Line} (h : counts line = false) :
    isSeparator line = false ∧ Text.clean line = [] := by
  cases line with
  | nil => exact ⟨rfl, rfl⟩
  | cons c cs =>
    obtain rfl : c = '#' := by simpa [counts, isComment] using h
    exact ⟨by simp [isSeparator], by simp [Text.clean, Text.uncomment]⟩

/-- Cleaning the lines between the separators leaves the contents between the boundaries. -/
theorem map_cleanLines_splitOnP (ls : List Line) :
    ((ls.filter counts).splitOnP isSeparator).map Definition.cleanLines =
      contents (ls.filterMap Item.ofLine?) := by
  induction ls with
  | nil => rfl
  | cons line ls ih =>
    by_cases hcounts : counts line = true
    · rw [List.filter_cons_of_pos hcounts, List.splitOnP_cons_eq_if_modifyHead]
      by_cases hsep : isSeparator line = true
      · rw [if_pos hsep, List.map_cons, ih,
          List.filterMap_cons_some (Item.ofLine?_of_isSeparator hsep), contents_boundary]
        rfl
      · have hsep' : isSeparator line = false := by simpa using hsep
        obtain ⟨first, others, hcut⟩ :=
          List.exists_cons_of_ne_nil (List.splitOnP_ne_nil isSeparator (ls.filter counts))
        rw [hcut, List.map_cons] at ih
        rw [if_neg hsep, hcut, List.modifyHead_cons, List.map_cons]
        -- A line that counts may still say nothing: then it goes when its section is cleaned.
        by_cases hclean : Text.clean line = []
        · have hfirst : Definition.cleanLines (line :: first) = Definition.cleanLines first := by
            simp [Definition.cleanLines, hclean]
          rw [List.filterMap_cons_none (Item.ofLine?_of_clean_eq_nil hsep' hclean), hfirst, ih]
        · have hfirst : Definition.cleanLines (line :: first) =
              Text.clean line :: Definition.cleanLines first := by
            simp [Definition.cleanLines, hclean]
          rw [List.filterMap_cons_some (Item.ofLine?_of_clean_ne_nil hsep' hclean),
            contents_content, ← ih, hfirst]
          rfl
    · rw [Bool.not_eq_true] at hcounts
      obtain ⟨hsep, hclean⟩ := clean_of_not_counts hcounts
      rw [List.filter_cons_of_neg (by simp [hcounts]), ih,
        List.filterMap_cons_none (Item.ofLine?_of_clean_eq_nil hsep hclean)]

theorem map_cleanLines_ofText (text : List Char) :
    (ofText text).map Definition.cleanLines = contents (items text) :=
  map_cleanLines_splitOnP _

end Section

namespace Bundle

def ofContents (sections : List (List Line)) : Except SchemaError Bundle :=
  (sections.mapM (List.foldlM Definition.putLine { name := none, fields := [] })).map List.eraseDups

theorem ofSections_eq (sections : List (List Line)) :
    ofSections sections = ofContents (sections.map Definition.cleanLines) := by
  rw [ofContents, List.mapM_map]
  rfl

/-- Reading goes by the items of a text. -/
theorem ofTextAsWritten_eq (text : String) :
    ofTextAsWritten text = ofContents (Section.contents (Section.items text.toList)) := by
  rw [ofTextAsWritten, ofSections_eq, Section.map_cleanLines_ofText]

/-- Texts with the same items are read as the same bundle, or fail with the same error, be type
names resolved or not. -/
theorem ofText_eq_of_items_eq {text text' : String}
    (h : Section.items text.toList = Section.items text'.toList) (keepsTypeNames : Bool) :
    ofText keepsTypeNames text = ofText keepsTypeNames text' := by
  have hwritten : ofTextAsWritten text = ofTextAsWritten text' := by
    rw [ofTextAsWritten_eq, ofTextAsWritten_eq, h]
  rw [ofText, ofText, hwritten]

/-- A text with comments on lines of their own, behind a header and behind an equals sign, with
indentation and carriage returns; and one without. The equals signs before a comment are no
separator in either. -/
theorem ofText_eq_of_comments :
    let text := "# root\r\n\tPoint origin  # x\r\n\r\nint32 N =# y\r\n  = \r\n MSG: pkg/Point #==\n == # z\n"
    let text' := "Point origin\nint32 N =\n=====\nMSG: pkg/Point\n==#"
    Section.items text.toList = Section.items text'.toList ∧
      ofText false text = ofText false text' ∧
      ofText false text' = .error (.malformedField "==") := by
  intro text text'
  have h : Section.items text.toList = Section.items text'.toList := by decide +kernel
  refine ⟨h, ofText_eq_of_items_eq h false, ?_⟩
  subst text'
  rfl

end Bundle
end MessageSchema
