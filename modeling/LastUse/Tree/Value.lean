import LastUse.Scalar
import LastUse.Tree.Kind
import LastUse.Tree.Path

/-!
# Values and fields of a statement tree

A tree is a `Value`: a scalar, a list, or a node of some kind with a value for each of its fields.
The fields of each kind are declared in `Kind.fields`, in the order in which a node holds them,
with the type that each is meant to have. A document may put any value in any field; the declared
types say which fields hold the parts of a node.
-/

namespace LastUse

/-- A value in a statement tree. -/
inductive Value where
  | scalar (s : Scalar)
  | list (items : List Value)
  | node (kind : Kind) (fields : List Value)
deriving Repr, Inhabited

/-- What a field is meant to hold. -/
inductive FieldType where
  | text
  | texts
  | scalar
  | expr
  | exprOrNone
  | exprs
  | block
  | stmt
  | stmtOrNone
  | stmts
  | cases
  /-- An expression, a statement or nothing. -/
  | clause
deriving DecidableEq, Repr, Inhabited

/-- How a field takes part in the tree. -/
inductive FieldRole where
  /-- The field holds no part of the node. -/
  | data
  /-- The field holds one part, or none if it is null. -/
  | part
  /-- The field holds a list of parts. -/
  | parts
deriving DecidableEq, Repr, Inhabited

/-- How a field of a type takes part in the tree. -/
def FieldType.role : FieldType → FieldRole
  | .text | .texts | .scalar => .data
  | .expr | .exprOrNone | .block | .stmt | .stmtOrNone | .clause => .part
  | .exprs | .stmts | .cases => .parts

/-- A declared field. -/
structure FieldDecl where
  name : String
  type : FieldType
  /-- The value of the field where a document leaves it out, if it may. -/
  default : Option Value
deriving Repr, Inhabited

namespace FieldDecl

/-- A field that every document gives. -/
def required (name : String) (type : FieldType) : FieldDecl := ⟨name, type, none⟩

/-- A field that is null where a document leaves it out. -/
def orNull (name : String) (type : FieldType) : FieldDecl := ⟨name, type, some (.scalar .null)⟩

/-- A field that is an empty list where a document leaves it out. -/
def orEmpty (name : String) (type : FieldType) : FieldDecl := ⟨name, type, some (.list [])⟩

end FieldDecl

open FieldDecl in
/-- The declared fields of a kind, in order. -/
def Kind.fields : Kind → List FieldDecl
  | .name => [required "id" .text]
  | .literal => [orNull "value" .scalar]
  | .call => [required "func" .text, orEmpty "args" .exprs]
  | .unary => [required "op" .text, required "operand" .expr]
  | .binary => [required "op" .text, required "left" .expr, required "right" .expr]
  | .assign =>
    [required "target" .expr, required "value" .expr, ⟨"op", .text, some (.scalar (.str "="))⟩]
  | .member => [required "base" .expr, required "field" .text]
  | .index => [required "base" .expr, required "index" .expr]
  | .addressOf => [required "operand" .expr]
  | .move => [required "operand" .expr]
  | .logicalAnd => [required "left" .expr, required "right" .expr]
  | .logicalOr => [required "left" .expr, required "right" .expr]
  | .block => [orEmpty "body" .stmts]
  | .exprStmt => [required "expr" .expr]
  | .decl => [required "name" .text, orNull "init" .exprOrNone]
  | .ifElse => [required "cond" .expr, required "then" .stmt, orNull "orelse" .stmtOrNone]
  | .whileLoop => [required "cond" .expr, required "body" .stmt]
  | .doWhile => [required "body" .stmt, required "cond" .expr]
  | .forLoop =>
    [required "init" .clause, required "cond" .exprOrNone, required "step" .exprOrNone,
     required "body" .stmt]
  | .foreach => [required "var" .text, required "iterable" .expr, required "body" .stmt]
  | .caseArm => [orEmpty "values" .exprs, orEmpty "body" .stmts]
  | .switch => [required "subject" .expr, orEmpty "cases" .cases]
  | .labeled => [required "label" .text, orNull "stmt" .stmtOrNone]
  | .goto => [required "label" .text]
  | .ret => [orNull "value" .exprOrNone]
  | .brk => []
  | .cont => []
  | .function =>
    [required "name" .text, orEmpty "params" .texts,
     ⟨"body", .block, some (.node .block [.list []])⟩]

namespace Value

/-- The null value. -/
abbrev null : Value := .scalar .null

/-- A text. -/
abbrev str (s : String) : Value := .scalar (.str s)

/-- The name of a value's type. -/
def typeName : Value → String
  | .scalar s => s.typeName
  | .list _ => "list"
  | .node k _ => k.tag

/-- Null, false, zeros, the empty text and the empty list count as false. -/
def truthy : Value → Bool
  | .scalar s => s.truthy
  | .list items => !items.isEmpty
  | .node _ _ => true

/-- Whether a value may be looked up: lists may not. -/
def isKey : Value → Bool
  | .list _ => false
  | _ => true

/-- The items that a value lists: those of a list, or the characters of a text. -/
def items? : Value → Option (List Value)
  | .list items => some items
  | .scalar (.str s) => some (s.toList.map fun c => .str c.toString)
  | _ => none

mutual

/-- The value as it is spelled in labels and messages. -/
def spelling : Value → String
  | .scalar s => s.spelling
  | .list items => "[" ++ Text.joined ", " (spellings items) ++ "]"
  | .node k fields => k.tag ++ "(" ++ Text.joined ", " (fieldSpellings k.fields fields) ++ ")"

/-- The spellings of the items of a list. -/
def spellings : List Value → List String
  | [] => []
  | v :: rest => v.spelling :: spellings rest

/-- The spellings of the fields of a node, each with its name. -/
def fieldSpellings : List FieldDecl → List Value → List String
  | f :: fs, v :: rest => (f.name ++ "=" ++ v.spelling) :: fieldSpellings fs rest
  | _, _ => []

end

/-- The value as it stands in running text, where a text has no quotation marks. -/
def plain : Value → String
  | .scalar s => s.plain
  | v => v.spelling

mutual

/-- Whether values at two places are equal, numbers by value. A node is an occurrence of its own,
equal to none at another place. -/
def same : Value → Value → Bool
  | .scalar a, .scalar b => a.same b
  | .list a, .list b => sameItems a b
  | _, _ => false

/-- Whether two lists are equal item by item. -/
def sameItems : List Value → List Value → Bool
  | [], [] => true
  | a :: as, b :: bs => a.same b && sameItems as bs
  | _, _ => false

end

mutual

/-- The nodes of a value at a place, each with its own place: a node before those in its fields,
fields and items in order. -/
def nodes (p : Path) : Value → List (Path × Value)
  | .scalar _ => []
  | .list items => itemNodes p 0 items
  | .node k fields => (p, .node k fields) :: fieldNodes p k.fields fields

/-- The nodes of the items of a list, from an index on. -/
def itemNodes (p : Path) (i : Nat) : List Value → List (Path × Value)
  | [] => []
  | v :: rest => v.nodes (p.item i) ++ itemNodes p (i + 1) rest

/-- The nodes of the fields of a node. -/
def fieldNodes (p : Path) : List FieldDecl → List Value → List (Path × Value)
  | f :: fs, v :: rest => v.nodes (p.field f.name) ++ fieldNodes p fs rest
  | _, _ => []

end

end Value

end LastUse
