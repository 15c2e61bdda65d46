import LastUse.Text.Printable

/-!
# Quoted text

A text is quoted between two marks, with escapes for the mark, the backslash and everything that is
not printable. The single mark is used unless the text holds a single mark and no double one.
-/

namespace LastUse.Text

/-- The single quotation mark. -/
def singleMark : Char := '\x27'

/-- The double quotation mark. -/
def doubleMark : Char := '\x22'

/-- The number in lower-case hexadecimal digits, filled up with zeros to a width. -/
def hex (width n : Nat) : String :=
  let digits := Nat.toDigits 16 n
  String.ofList (List.replicate (width - digits.length) '0' ++ digits)

/-- A character inside a text that is quoted with `mark`. -/
def quotedChar (mark c : Char) : String :=
  if c = mark || c = '\\' then String.ofList ['\\', c]
  else if c = '\n' then "\\n"
  else if c = '\r' then "\\r"
  else if c = '\t' then "\\t"
  else if isPrintable c then c.toString
  else if c.toNat < 0x100 then "\\x" ++ hex 2 c.toNat
  else if c.toNat < 0x10000 then "\\u" ++ hex 4 c.toNat
  else "\\U" ++ hex 8 c.toNat

/-- The mark that a text is quoted with. -/
def markFor (s : String) : Char :=
  if s.toList.contains singleMark && !s.toList.contains doubleMark then doubleMark else singleMark

/-- The text between quotation marks. -/
def quoted (s : String) : String :=
  let mark := markFor s
  mark.toString ++ String.join (s.toList.map (quotedChar mark)) ++ mark.toString

/-- Texts side by side, with a separator between two of them. -/
def joined (separator : String) (texts : List String) : String :=
  separator.intercalate texts

/-- Numbers between square brackets. -/
def bracketed (ns : List Nat) : String :=
  "[" ++ joined ", " (ns.map fun n => toString n) ++ "]"

end LastUse.Text
