import MessageSchema.Text.Line

/-!
The sections of a text. A line of equals signs alone stands between two sections; blank lines and
lines that are all comment belong to none.
-/
namespace MessageSchema
namespace Section

def isSeparator (line : Line) : Bool := line != [] && line.all (· == '=')

def isComment (line : Line) : Bool := line.head? == some '#'

def contentLines (text : List Char) : List Line :=
  ((Text.lines text).map Text.trim).filter fun line => line != [] && !isComment line

/-- The lines of each section in turn. There is always one section more than separators. -/
def ofText (text : List Char) : List (List Line) := (contentLines text).splitOnP isSeparator

theorem ofText_ne_nil (text : List Char) : ofText text ≠ [] := by simp [ofText]

end Section
end MessageSchema
