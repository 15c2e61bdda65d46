import LastUse.Json.Basic

/-!
# Writing JSON

A document as text, in ASCII only. The layout says what separates items and names from values, and
whether each item stands on a line of its own.
-/

namespace LastUse.Json

/-- How a document is laid out. -/
structure Layout where
  /-- What follows an item that is not the last one. -/
  itemSeparator : String
  /-- What stands between a name and its value. -/
  nameSeparator : String
  /-- The step of indentation, if each item stands on a line of its own. -/
  indent : Option Nat

namespace Layout

/-- No space at all. -/
def compact : Layout := ⟨",", ":", none⟩

/-- On one line, with a space after each separator. -/
def spaced : Layout := ⟨", ", ": ", none⟩

/-- One item a line, indented by two. -/
def indented : Layout := ⟨",", ": ", some 2⟩

/-- A new line at some depth, if items stand on lines of their own. -/
def lineBreak (l : Layout) (depth : Nat) : String :=
  match l.indent with
  | some step => "\n" ++ String.ofList (List.replicate (step * depth) ' ')
  | none => ""

end Layout

/-- A code unit of sixteen bits as an escape. -/
def unitEscape (n : Nat) : String := "\\u" ++ Text.hex 4 n

/-- A character of a JSON text. Outside ASCII it is written by its code units of sixteen bits. -/
def writtenChar (c : Char) : String :=
  if c = Text.doubleMark then "\\\""
  else if c = '\\' then "\\\\"
  else if c = '\n' then "\\n"
  else if c = '\r' then "\\r"
  else if c = '\t' then "\\t"
  else if c = '\x08' then "\\b"
  else if c = '\x0c' then "\\f"
  else if 0x20 ≤ c.toNat && c.toNat < 0x7f then c.toString
  else if c.toNat < 0x10000 then unitEscape c.toNat
  else
    let n := c.toNat - 0x10000
    unitEscape (0xd800 + n / 0x400) ++ unitEscape (0xdc00 + n % 0x400)

/-- A text between quotation marks. -/
def writtenText (s : String) : String :=
  "\"" ++ String.join (s.toList.map writtenChar) ++ "\""

/-- A scalar. Numbers that are not finite are written as words. -/
def writtenScalar : Scalar → String
  | .null => "null"
  | .bool b => if b then "true" else "false"
  | .int n => toString n
  | .float .nan => "NaN"
  | .float (.infinite negative) => (if negative then "-" else "") ++ "Infinity"
  | .float x => (Scalar.float x).spelling
  | .str s => writtenText s

/-- The name that a scalar has as a member of an object. -/
def memberName : Scalar → String
  | .str s => s
  | s => writtenScalar s

/-- Written items between brackets. -/
def enclosed (l : Layout) (depth : Nat) (left right : String) (items : List String) : String :=
  if items.isEmpty then left ++ right
  else
    left ++ l.lineBreak (depth + 1)
      ++ Text.joined (l.itemSeparator ++ l.lineBreak (depth + 1)) items
      ++ l.lineBreak depth ++ right

mutual

/-- The text of a document that stands at some depth. -/
def write (l : Layout) (depth : Nat) : Json → String
  | .scalar s => writtenScalar s
  | .arr items => enclosed l depth "[" "]" (writeItems l (depth + 1) items)
  | .obj members => enclosed l depth "\x7b" "\x7d" (writeMembers l (depth + 1) members)

/-- The texts of the items of an array. -/
def writeItems (l : Layout) (depth : Nat) : List Json → List String
  | [] => []
  | j :: rest => j.write l depth :: writeItems l depth rest

/-- The texts of the members of an object. -/
def writeMembers (l : Layout) (depth : Nat) : List (String × Json) → List String
  | [] => []
  | (k, j) :: rest =>
    (writtenText k ++ l.nameSeparator ++ j.write l depth) :: writeMembers l depth rest

end

/-- The text of a document. -/
def text (l : Layout) (j : Json) : String := j.write l 0

end LastUse.Json
