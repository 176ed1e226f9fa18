import MessageSchema.Text.Blank

/-!
Lines of a text. A text is cut at line feeds and put together with them; a line is cut at its
first comment mark. The carriage return of a line end is a blank and goes when a line is trimmed.
-/
namespace MessageSchema

abbrev Line := List Char

namespace Text

def lines (text : List Char) : List Line := text.splitOn '\n'

def unlines (ls : List Line) : List Char := ['\n'].intercalate ls

theorem lines_ne_nil (text : List Char) : lines text ≠ [] := by
  simp [lines, List.splitOn_eq_splitOnP]

def uncomment (line : Line) : Line := line.takeWhile (· ≠ '#')

theorem mark_not_mem_uncomment (line : Line) : '#' ∉ uncomment line := by
  intro h
  have hall : (uncomment line).all (· ≠ '#') = true := List.all_takeWhile
  simpa using List.all_eq_true.mp hall '#' h

/-- A line without its comment and without blanks at its ends. -/
def clean (line : Line) : Line := trim (uncomment line)

end Text
end MessageSchema
