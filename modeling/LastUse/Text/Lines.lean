/-!
# Lines

A text falls into lines at line feeds, carriage returns and the other line boundaries; a carriage
return with a line feed behind it is one boundary. A boundary at the end of the text starts no
further line.
-/

namespace LastUse.Text

/-- Whether a character ends a line. -/
def isBoundary (c : Char) : Bool :=
  ['\n', '\r', '\x0b', '\x0c', '\x1c', '\x1d', '\x1e', '\u0085', '\u2028', '\u2029'].contains c

/-- The lines of a text, where `line` holds what the first one has already, in reverse. -/
def linesFrom (line : List Char) : List Char → List (List Char)
  | [] => if line.isEmpty then [] else [line.reverse]
  | '\r' :: '\n' :: rest => line.reverse :: linesFrom [] rest
  | c :: rest =>
    if isBoundary c then line.reverse :: linesFrom [] rest else linesFrom (c :: line) rest

/-- The lines of a text. -/
def lines (s : String) : List String := (linesFrom [] s.toList).map String.ofList

end LastUse.Text
