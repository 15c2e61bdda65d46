import LastUse.Json.Basic

/-!
# Reading JSON

`Json.read` reads a document from a text. Beyond the standard it takes the words for numbers that
are not finite, and of two members of one name it keeps the later value at the earlier place. A
text that is no document is refused with a complaint and the position it is about.
-/

namespace LastUse.Json

/-- What is wrong at a position of a text. -/
inductive Complaint where
  | value
  | propertyName
  | colon
  | comma
  | extraData
  | unterminated
  | controlChar
  | escape
  | unicodeEscape
  | byteOrderMark
deriving DecidableEq, Repr, Inhabited

/-- The wording of a complaint. -/
def Complaint.wording : Complaint → String
  | .value => "Expecting value"
  | .propertyName => "Expecting property name enclosed in double quotes"
  | .colon => "Expecting ':' delimiter"
  | .comma => "Expecting ',' delimiter"
  | .extraData => "Extra data"
  | .unterminated => "Unterminated string starting at"
  | .controlChar => "Invalid control character at"
  | .escape => "Invalid \\escape"
  | .unicodeEscape => "Invalid \\uXXXX escape"
  | .byteOrderMark => "Unexpected UTF-8 BOM (decode using utf-8-sig)"

/-- Why a text is no document. -/
inductive ReadError where
  /-- The text breaks off from the grammar at a position. -/
  | illFormed (complaint : Complaint) (position : Nat)
  /-- A whole number has more digits than are read. -/
  | tooManyDigits
deriving DecidableEq, Repr, Inhabited

/-- Line and column of a position, both from one. -/
def lineColumn (text : List Char) (position : Nat) : Nat × Nat :=
  let before := text.take position
  (before.count '\n' + 1, (before.reverse.takeWhile (· ≠ '\n')).length + 1)

/-- A complaint about a text, with its position. -/
def complaintMessage (text : List Char) (complaint : Complaint) (position : Nat) : String :=
  let (line, column) := lineColumn text position
  complaint.wording ++ ": line " ++ toString line ++ " column " ++ toString column
    ++ " (char " ++ toString position ++ ")"

/-- The unread part of a text and the position where it starts. -/
structure Input where
  position : Nat
  rest : List Char

namespace Input

/-- The input without its first `n` characters. -/
def skip (i : Input) (n : Nat) : Input := ⟨i.position + n, i.rest.drop n⟩

/-- The input without the blanks at its start. -/
def skipBlanks (i : Input) : Input :=
  i.skip (i.rest.takeWhile fun c => c = ' ' || c = '\t' || c = '\n' || c = '\r').length

/-- Refuses the text with a complaint about the start of the input. -/
def fail {α : Type} (i : Input) (complaint : Complaint) : Except ReadError α :=
  .error (.illFormed complaint i.position)

end Input

/-- The value of a hexadecimal digit. -/
def hexDigit? (c : Char) : Option Nat :=
  if c.isDigit then some (c.toNat - '0'.toNat)
  else if 'a' ≤ c && c ≤ 'f' then some (c.toNat - 'a'.toNat + 10)
  else if 'A' ≤ c && c ≤ 'F' then some (c.toNat - 'A'.toNat + 10)
  else none

/-- The number that four hexadecimal digits at the start of a text write. -/
def hexUnit? : List Char → Option Nat
  | a :: b :: c :: d :: _ => do
    let a ← hexDigit? a
    let b ← hexDigit? b
    let c ← hexDigit? c
    let d ← hexDigit? d
    pure (((a * 16 + b) * 16 + c) * 16 + d)
  | _ => none

/-- Whether a code unit opens a pair. -/
def isHighUnit (n : Nat) : Bool := 0xd800 ≤ n && n < 0xdc00

/-- Whether a code unit closes a pair. -/
def isLowUnit (n : Nat) : Bool := 0xdc00 ≤ n && n < 0xe000

/-- The character of a code point; one half of a pair alone stands for the replacement
character. -/
def charOf (n : Nat) : Char :=
  if isHighUnit n || isLowUnit n then '\ufffd' else Char.ofNat n

/-- The character that a one-letter escape stands for. -/
def letterEscape? : Char → Option Char
  | '\x22' => some '\x22'
  | '\\' => some '\\'
  | '/' => some '/'
  | 'b' => some '\x08'
  | 'f' => some '\x0c'
  | 'n' => some '\n'
  | 'r' => some '\r'
  | 't' => some '\t'
  | _ => none

/-- The character of a `u` escape and the number of characters behind the `u` that it takes. Its
digits must not be the last characters of the text. Two escapes that make a pair count as one
character. -/
def unicodeEscape? (digits : List Char) : Except Nat (Char × Nat) :=
  if digits.length ≤ 4 then .error 0
  else
    match hexUnit? digits with
    | none => .error 0
    | some high =>
      match digits.drop 4 with
      | '\\' :: 'u' :: more =>
        if isHighUnit high && 4 < more.length then
          match hexUnit? more with
          | none => .error 6
          | some low =>
            if isLowUnit low then
              .ok (Char.ofNat (0x10000 + (high - 0xd800) * 0x400 + (low - 0xdc00)), 10)
            else .ok (charOf high, 4)
        else .ok (charOf high, 4)
      | _ => .ok (charOf high, 4)

/-- Reads the rest of a text value whose opening mark stands at `opening`. Each round takes one
character or one escape, so one round more than there are characters always does. -/
def readText (opening : Nat) : (rounds : Nat) → Input → List Char →
    Except ReadError (String × Input)
  | 0, _, _ => .error (.illFormed .unterminated opening)
  | rounds + 1, i, taken =>
    match i.rest with
    | [] => .error (.illFormed .unterminated opening)
    | '\x22' :: _ => .ok (String.ofList taken.reverse, i.skip 1)
    | '\\' :: [] => .error (.illFormed .unterminated opening)
    | '\\' :: 'u' :: more =>
      match unicodeEscape? more with
      | .ok (c, n) => readText opening rounds (i.skip (2 + n)) (c :: taken)
      | .error n => (i.skip (1 + n)).fail .unicodeEscape
    | '\\' :: c :: _ =>
      match letterEscape? c with
      | some d => readText opening rounds (i.skip 2) (d :: taken)
      | none => i.fail .escape
    | c :: _ =>
      if c.toNat < 0x20 then i.fail .controlChar
      else readText opening rounds (i.skip 1) (c :: taken)

/-- The number that decimal digits write. -/
def digitsValue (digits : List Char) : Nat :=
  digits.foldl (fun n c => n * 10 + (c.toNat - '0'.toNat)) 0

/-- The digits of a whole part: a zero alone, or digits that do not start with one. -/
def wholePart? : List Char → Option (List Char)
  | '0' :: _ => some ['0']
  | rest =>
    match rest.takeWhile Char.isDigit with
    | [] => none
    | digits => some digits

/-- The digits of a fractional part, without its point; empty if there is none. -/
def fractionPart : List Char → List Char
  | '.' :: rest => rest.takeWhile Char.isDigit
  | _ => []

/-- An exponent and the number of characters it takes, if one stands at the start. -/
def exponentPart? (rest : List Char) : Option (Int × Nat) :=
  match rest with
  | e :: rest =>
    if e = 'e' || e = 'E' then
      let (sign, rest) : Option Bool × List Char :=
        match rest with
        | '-' :: rest => (some true, rest)
        | '+' :: rest => (some false, rest)
        | rest => (none, rest)
      match rest.takeWhile Char.isDigit with
      | [] => none
      | digits =>
        let n : Int := digitsValue digits
        some (if sign = some true then -n else n,
          1 + (if sign.isSome then 1 else 0) + digits.length)
    else none
  | [] => none

/-- Reads a number. A number with a fraction or an exponent is a floating-point one. -/
def readNumber (i : Input) : Except ReadError (Scalar × Input) :=
  let negative := i.rest.head? = some '-'
  let j := if negative then i.skip 1 else i
  match wholePart? j.rest with
  | none => i.fail .value
  | some whole =>
    let j := j.skip whole.length
    let fraction := fractionPart j.rest
    let j := if fraction.isEmpty then j else j.skip (fraction.length + 1)
    let exponent := exponentPart? j.rest
    let j := match exponent with
      | some (_, n) => j.skip n
      | none => j
    if fraction.isEmpty && exponent.isNone then
      if digitLimit < whole.length then .error .tooManyDigits
      else
        let n : Int := digitsValue whole
        .ok (.int (if negative then -n else n), j)
    else
      let e := (exponent.map (·.1)).getD 0
      .ok (.float (.ofDecimal negative (digitsValue (whole ++ fraction)) (e - fraction.length)), j)

/-- The words that stand for a scalar. -/
def words : List (String × Scalar) :=
  [("null", .null), ("true", .bool true), ("false", .bool false), ("NaN", .float .nan),
   ("Infinity", .float (.infinite false)), ("-Infinity", .float (.infinite true))]

/-- Reads a word or a number. -/
def readWord (i : Input) : Except ReadError (Scalar × Input) :=
  match words.find? fun w => w.1.toList.isPrefixOf i.rest with
  | some (w, s) => .ok (s, i.skip w.length)
  | none => readNumber i

mutual

/-- Reads a document. Each call below it takes a character of the text or hands over to one that
does, so twice as many rounds as there are characters always do. -/
def readDocument : (rounds : Nat) → Input → Except ReadError (Json × Input)
  | 0, i => i.fail .value
  | rounds + 1, i =>
    match i.rest with
    | '\x22' :: _ => do
      let (s, i) ← readText i.position rounds (i.skip 1) []
      pure (.str s, i)
    | '{' :: _ =>
      let i := (i.skip 1).skipBlanks
      if i.rest.head? = some '}' then pure (.obj [], i.skip 1)
      else readMembers rounds i []
    | '[' :: _ =>
      let i := (i.skip 1).skipBlanks
      if i.rest.head? = some ']' then pure (.arr [], i.skip 1)
      else readItems rounds i []
    | _ => do
      let (s, i) ← readWord i
      pure (.scalar s, i)

/-- Reads the items of an array, those before the input in reverse order in `taken`. -/
def readItems : (rounds : Nat) → Input → List Json → Except ReadError (Json × Input)
  | 0, i, _ => i.fail .value
  | rounds + 1, i, taken => do
    let (j, i) ← readDocument rounds i
    let i := i.skipBlanks
    match i.rest with
    | ']' :: _ => pure (.arr (j :: taken).reverse, i.skip 1)
    | ',' :: _ => readItems rounds (i.skip 1).skipBlanks (j :: taken)
    | _ => i.fail .comma

/-- Reads the members of an object, those before the input in `taken`. -/
def readMembers : (rounds : Nat) → Input → List (String × Json) →
    Except ReadError (Json × Input)
  | 0, i, _ => i.fail .value
  | rounds + 1, i, taken =>
    match i.rest with
    | '\x22' :: _ => do
      let (key, i) ← readText i.position rounds (i.skip 1) []
      let i := i.skipBlanks
      if i.rest.head? ≠ some ':' then i.fail .colon
      let (j, i) ← readDocument rounds (i.skip 1).skipBlanks
      let i := i.skipBlanks
      let taken := setEntry key j taken
      match i.rest with
      | '}' :: _ => pure (.obj taken, i.skip 1)
      | ',' :: _ => readMembers rounds (i.skip 1).skipBlanks taken
      | _ => i.fail .comma
    | _ => i.fail .propertyName

end

/-- Reads a text that holds one document and nothing else. -/
def read (text : List Char) : Except ReadError Json :=
  if text.head? = some '\ufeff' then .error (.illFormed .byteOrderMark 0)
  else do
    let (j, i) ← readDocument (2 * text.length + 2) (Input.mk 0 text).skipBlanks
    let i := i.skipBlanks
    if i.rest.isEmpty then pure j else i.fail .extraData

end LastUse.Json
