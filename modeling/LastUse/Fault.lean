import LastUse.Scalar
import LastUse.Tree.Kind
import LastUse.Tree.Path

/-!
# Faults

What can go wrong, by cause. A `Malformation` is a fault of the document or of the tree it holds;
its wording is `Malformation.message`. The other faults are of values that stand where they cannot
be used, and of queries about things that are not there.
-/

namespace LastUse

/-- Why a document or a tree is refused. -/
inductive Malformation where
  /-- The text is no JSON document; the complaint about it is given. -/
  | notJson (complaint : String)
  /-- The place does not hold an object with a type. -/
  | notANode (place : Path)
  /-- No kind has the tag. -/
  | unknownType (place : Path) (tag : Scalar)
  /-- A field without a default is missing. -/
  | missingField (place : Path) (kind : Kind) (field : String)
  /-- Some members are no fields of the kind. -/
  | unknownFields (place : Path) (kind : Kind) (fields : List String)
  /-- The document holds another tree than a function. -/
  | otherRoot (kind : Kind)
  /-- A flow graph is asked of something else than a function. -/
  | notAFunction (type : String)
  /-- The body of the function is not a block. -/
  | bodyNotABlock
  /-- Something else stands where a statement is needed. -/
  | notAStatement (type : String)
  /-- Something else stands where an expression is needed. -/
  | notAnExpression (type : String)
  /-- An arm of a switch is not a case. -/
  | armNotACase (type : String)
  /-- An operand whose address is taken, or which is moved, is evaluated conditionally. -/
  | conditionalOperand (kind : Kind)
  /-- Two statements carry one label. -/
  | labelTwice (label : String)
  /-- A `break` has nothing to leave. -/
  | breakOutside
  /-- A `continue` has no loop to go on with. -/
  | continueOutside
  /-- No statement carries the label that a `goto` names. -/
  | undefinedLabel (label : String)
deriving DecidableEq, Repr, Inhabited

/-- The wording of a malformation. -/
def Malformation.message : Malformation → String
  | .notJson complaint => "invalid JSON: " ++ complaint
  | .notANode p => p.text ++ ": expected an object with a 'type' key"
  | .unknownType p t => p.text ++ ": unknown node type " ++ t.spelling
  | .missingField p k f => p.text ++ ": " ++ k.tag ++ " is missing field " ++ Text.quoted f
  | .unknownFields p k fs =>
    p.text ++ ": unknown fields [" ++ Text.joined ", " (fs.map Text.quoted) ++ "] for " ++ k.tag
  | .otherRoot k => "$: expected a Function, got " ++ k.tag
  | .notAFunction t => "expected a Function node, got " ++ t
  | .bodyNotABlock => "function body must be a Block"
  | .notAStatement t => "unexpected statement " ++ t
  | .notAnExpression t => "expected an expression, got " ++ t
  | .armNotACase t => "switch arm must be a Case, got " ++ t
  | .conditionalOperand k => "short-circuit operand under " ++ k.tag
  | .labelTwice l => "label " ++ Text.quoted l ++ " defined twice"
  | .breakOutside => "break outside of a loop or switch"
  | .continueOutside => "continue outside of a loop or switch"
  | .undefinedLabel l => "goto to undefined label " ++ Text.quoted l

/-- Why something cannot be done. -/
inductive Fault where
  /-- A value is used as a text, a list, a mapping or a key, and is none. -/
  | mistyped
  /-- Something that has neither parts nor members is asked for one. -/
  | partless
  /-- A value has the right type and cannot be used all the same. -/
  | unusable
  /-- A position lies outside of a list. -/
  | outOfRange
  /-- A whole number is beyond every floating-point number. -/
  | tooLarge
  /-- The document or the tree is refused. -/
  | malformed (cause : Malformation)
  /-- A query names a site that the function does not have; what it named is spelled out. -/
  | unknownSite (named : String)
deriving DecidableEq, Repr, Inhabited

/-- The wording of a fault, where it has one. -/
def Fault.message? : Fault → Option String
  | .malformed m => some m.message
  | .unknownSite named => some ("no site " ++ named ++ " in this function")
  | _ => none

end LastUse
