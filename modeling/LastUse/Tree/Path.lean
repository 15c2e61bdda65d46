/-!
# Paths

A path names a place in a document: the root, a field of the object at a place, or an item of the
list at a place.
-/

namespace LastUse

/-- A place in a document. -/
inductive Path where
  | root
  | field (parent : Path) (name : String)
  | item (parent : Path) (index : Nat)
deriving DecidableEq, Repr, Inhabited

/-- The text of a path, with `$` for the root. -/
def Path.text : Path → String
  | .root => "$"
  | .field p f => p.text ++ "." ++ f
  | .item p i => p.text ++ "[" ++ toString i ++ "]"

end LastUse
