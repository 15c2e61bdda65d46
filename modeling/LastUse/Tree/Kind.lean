/-!
# Kinds of nodes

The node kinds of a statement tree, each with the tag that names it in a document.
-/

namespace LastUse

/-- The kind of a tree node: expressions, statements, and the function itself. -/
inductive Kind where
  | name
  | literal
  | call
  | unary
  | binary
  | assign
  | member
  | index
  | addressOf
  | move
  | logicalAnd
  | logicalOr
  | block
  | exprStmt
  | decl
  | ifElse
  | whileLoop
  | doWhile
  | forLoop
  | foreach
  | caseArm
  | switch
  | labeled
  | goto
  | ret
  | brk
  | cont
  | function
deriving DecidableEq, Repr, Inhabited

namespace Kind

/-- The tag of a kind. -/
def tag : Kind → String
  | .name => "Name"
  | .literal => "Literal"
  | .call => "Call"
  | .unary => "Unary"
  | .binary => "Binary"
  | .assign => "Assign"
  | .member => "Member"
  | .index => "Index"
  | .addressOf => "AddressOf"
  | .move => "Move"
  | .logicalAnd => "LogicalAnd"
  | .logicalOr => "LogicalOr"
  | .block => "Block"
  | .exprStmt => "ExprStmt"
  | .decl => "Decl"
  | .ifElse => "If"
  | .whileLoop => "While"
  | .doWhile => "DoWhile"
  | .forLoop => "For"
  | .foreach => "Foreach"
  | .caseArm => "Case"
  | .switch => "Switch"
  | .labeled => "Labeled"
  | .goto => "Goto"
  | .ret => "Return"
  | .brk => "Break"
  | .cont => "Continue"
  | .function => "Function"

/-- The kinds of expressions. -/
def exprs : List Kind :=
  [.name, .literal, .call, .unary, .binary, .assign, .member, .index, .addressOf, .move,
   .logicalAnd, .logicalOr]

/-- The kinds of statements. -/
def stmts : List Kind :=
  [.block, .exprStmt, .decl, .ifElse, .whileLoop, .doWhile, .forLoop, .foreach, .caseArm, .switch,
   .labeled, .goto, .ret, .brk, .cont]

/-- All kinds. -/
def all : List Kind := exprs ++ stmts ++ [.function]

/-- Whether nodes of the kind are statements. -/
def isStmt (k : Kind) : Bool := stmts.contains k

/-- The kind with a tag. -/
def ofTag? (tag : String) : Option Kind := all.find? fun k => k.tag = tag

/-- A kind is found by its tag. -/
@[simp] theorem ofTag?_tag (k : Kind) : ofTag? k.tag = some k := by
  cases k <;> decide

end Kind

end LastUse
