import LastUse.Tree.Value

/-!
# Notes

What an analysis notes down on its way, for the log.
-/

namespace LastUse

/-- A note of an analysis. -/
inductive Note where
  /-- An outstanding address is dropped at a site. -/
  | escapeReset (ordinal : Nat)
  /-- The candidate is lost to a later access that may run again. -/
  | cleared (candidate access : Nat)
  /-- Several arms of a branch access the binding. -/
  | divergent
  /-- A candidate is dropped because control can get from it to other accesses. -/
  | dropped (ordinal : Nat) (accesses : List Nat)
  /-- The address of the binding is taken. -/
  | addressTaken (points resets : List Nat)
deriving DecidableEq, Repr, Inhabited

/-- The wording of a note about a binding. -/
def Note.message (name : Value) (n : Note) : String :=
  name.plain ++ ": " ++
    match n with
    | .escapeReset o => "escape reset at site " ++ toString o
    | .cleared c o => "site " ++ toString c ++ " cleared by excluded site " ++ toString o
    | .divergent => "divergent branch, no candidate survives"
    | .dropped o later =>
      "site " ++ toString o ++ " dropped, reaches access at " ++ Text.bracketed later
    | .addressTaken points resets =>
      "address taken at sites " ++ Text.bracketed points ++ ", reset at " ++ Text.bracketed resets

end LastUse
