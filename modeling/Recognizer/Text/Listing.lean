/-!
# Lists of texts

The two ways in which several texts are shown as one, and the padding that
lines columns up.
-/

namespace Recognizer.Text

def commaSeparated (items : List String) : String := ", ".intercalate items

/-- Texts separated by commas, in braces. -/
def braced (items : List String) : String := "\x7b" ++ commaSeparated items ++ "\x7d"

/-- A text with spaces behind it, up to the given number of characters. -/
def padded (width : Nat) (s : String) : String :=
  s ++ String.ofList (List.replicate (width - s.length) ' ')

def widest (items : List String) : Nat := (items.map String.length).foldl max 0

def lines (items : List String) : String := String.join (items.map (· ++ "\n"))

end Recognizer.Text
