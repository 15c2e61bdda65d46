import LastUse.Entries
import LastUse.Scalar

/-!
# JSON documents

A document is a scalar, an array, or an object whose members keep the order in which they were
first written.
-/

namespace LastUse

/-- A JSON document. -/
inductive Json where
  | scalar (s : Scalar)
  | arr (items : List Json)
  | obj (members : List (String × Json))
deriving Repr, Inhabited

namespace Json

/-- The null document. -/
abbrev null : Json := .scalar .null

/-- A truth value. -/
abbrev bool (b : Bool) : Json := .scalar (.bool b)

/-- A text. -/
abbrev str (s : String) : Json := .scalar (.str s)

/-- A natural number. -/
abbrev nat (n : Nat) : Json := .scalar (.int n)

/-- An array of natural numbers. -/
def nats (ns : List Nat) : Json := .arr (ns.map nat)

/-- The value of a member of an object. -/
def get? (key : String) : Json → Option Json
  | .obj members => members.lookup key
  | _ => none

/-- Empty documents, null, false and zeros count as false. -/
def truthy : Json → Bool
  | .scalar s => s.truthy
  | .arr items => !items.isEmpty
  | .obj members => !members.isEmpty

mutual

/-- The document as it is spelled in messages. -/
def spelling : Json → String
  | .scalar s => s.spelling
  | .arr items => "[" ++ Text.joined ", " (spellings items) ++ "]"
  | .obj members => "\x7b" ++ Text.joined ", " (memberSpellings members) ++ "\x7d"

/-- The spellings of the items of an array. -/
def spellings : List Json → List String
  | [] => []
  | j :: rest => j.spelling :: spellings rest

/-- The spellings of the members of an object. -/
def memberSpellings : List (String × Json) → List String
  | [] => []
  | (k, j) :: rest => (Text.quoted k ++ ": " ++ j.spelling) :: memberSpellings rest

end

end Json

end LastUse
