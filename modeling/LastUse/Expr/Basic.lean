import LastUse.Fault
import LastUse.Tree.Value

/-!
# Expressions

The expressions of a function body, read from a tree with `Expr.ofValue`. Every node keeps its
place.

A tree may hold anything where an expression is meant to stand. What is no expression is kept:
nothing at all (`absent`), a value that is no node (`stray`), parts that are no list (`unlisted`)
and nodes that are no expressions (`foreign`). Only what looks at such a thing can say whether it
does harm.

`Expr.preorder` lists the nodes of an expression with a stack of those still to visit; `Expr.nodes`
is the same list by recursion.
-/

namespace LastUse

/-- A connective whose right operand is evaluated only if the left one does not settle the
result. -/
inductive Connective where
  | and
  | or
deriving DecidableEq, Repr, Inhabited

/-- The kind of the nodes with a connective. -/
def Connective.kind : Connective → Kind
  | .and => .logicalAnd
  | .or => .logicalOr

/-- The sign of a connective. -/
def Connective.sign : Connective → String
  | .and => "&&"
  | .or => "||"

/-- An expression, or what stands in the place of one. -/
inductive Expr where
  /-- Nothing. -/
  | absent
  /-- A value that is no node, by the name of its type. -/
  | stray (type : String)
  /-- Parts that cannot be listed. -/
  | unlisted
  /-- A node that is no expression. -/
  | foreign (place : Path) (kind : Kind) (parts : List Expr)
  | name (place : Path) (id : Value)
  | literal (place : Path) (value : Value)
  | call (place : Path) (func : Value) (args : List Expr)
  | unary (place : Path) (op : Value) (operand : Expr)
  | binary (place : Path) (op : Value) (left right : Expr)
  | assign (place : Path) (op : Value) (target value : Expr)
  | member (place : Path) (base : Expr) (field : Value)
  | index (place : Path) (base position : Expr)
  | addressOf (place : Path) (operand : Expr)
  | move (place : Path) (operand : Expr)
  | logic (place : Path) (connective : Connective) (left right : Expr)
deriving Repr, Inhabited

namespace Expr

/-- Whether parts could not be listed. -/
def isUnlisted : Expr → Bool
  | .unlisted => true
  | _ => false

/-- Whether there is nothing. -/
def isAbsent : Expr → Bool
  | .absent => true
  | _ => false

/-- The expression of a node, from its fields and its parts. A node of which some parts cannot be
listed has no parts that can. -/
def assemble (p : Path) (k : Kind) (fields : List Value) (parts : List Expr) : Expr :=
  let parts := if parts.any isUnlisted then [.unlisted] else parts
  match k, fields, parts with
  | .name, [id], _ => .name p id
  | .literal, [value], _ => .literal p value
  | .call, func :: _, args => .call p func args
  | .unary, op :: _, [operand] => .unary p op operand
  | .binary, op :: _, [left, right] => .binary p op left right
  | .assign, [_, _, op], [target, value] => .assign p op target value
  | .member, [_, field], [base] => .member p base field
  | .index, _, [base, position] => .index p base position
  | .addressOf, _, [operand] => .addressOf p operand
  | .move, _, [operand] => .move p operand
  | .logicalAnd, _, [left, right] => .logic p .and left right
  | .logicalOr, _, [left, right] => .logic p .or left right
  | k, _, parts => .foreign p k parts

mutual

/-- What a value at a place is as an expression. -/
def ofValue (p : Path) : Value → Expr
  | .scalar .null => .absent
  | .scalar s => .stray s.typeName
  | .list items => .stray (Value.list items).typeName
  | .node k fields => assemble p k fields (ofFields p k.fields fields)

/-- The parts of a node, from its fields. -/
def ofFields (p : Path) : List FieldDecl → List Value → List Expr
  | f :: fs, v :: rest =>
    (match f.type.role, v with
      | .data, _ => []
      | .part, v => [ofValue (p.field f.name) v]
      | .parts, .list items => ofItems (p.field f.name) 0 items
      | .parts, .scalar (.str s) => s.toList.map fun _ => .stray (Scalar.str s).typeName
      | .parts, _ => [.unlisted])
      ++ ofFields p fs rest
  | _, _ => []

/-- The items of a list, from an index on. -/
def ofItems (p : Path) (i : Nat) : List Value → List Expr
  | [] => []
  | v :: rest => ofValue (p.item i) v :: ofItems p (i + 1) rest

end

/-- The place of a node. -/
def place? : Expr → Option Path
  | .absent | .stray _ | .unlisted => none
  | .foreign p _ _ | .name p _ | .literal p _ | .call p _ _ | .unary p _ _ | .binary p _ _ _
  | .assign p _ _ _ | .member p _ _ | .index p _ _ | .addressOf p _ | .move p _
  | .logic p _ _ _ => some p

/-- The name of the type of what stands there. -/
def typeName : Expr → String
  | .absent => Scalar.null.typeName
  | .stray t => t
  | .unlisted => Scalar.null.typeName
  | .foreign _ k _ => k.tag
  | .name .. => Kind.name.tag
  | .literal .. => Kind.literal.tag
  | .call .. => Kind.call.tag
  | .unary .. => Kind.unary.tag
  | .binary .. => Kind.binary.tag
  | .assign .. => Kind.assign.tag
  | .member .. => Kind.member.tag
  | .index .. => Kind.index.tag
  | .addressOf .. => Kind.addressOf.tag
  | .move .. => Kind.move.tag
  | .logic _ c _ _ => c.kind.tag

/-- The parts of a node, in the order of evaluation. -/
def parts : Expr → List Expr
  | .absent | .stray _ | .unlisted | .name .. | .literal .. => []
  | .foreign _ _ parts => parts
  | .call _ _ args => args
  | .unary _ _ e | .addressOf _ e | .move _ e => [e]
  | .member _ base _ => [base]
  | .binary _ _ l r | .assign _ _ l r | .index _ l r | .logic _ _ l r => [l, r]

mutual

/-- The number of nodes, counting what is no node too. -/
def size : Expr → Nat
  | .absent | .stray _ | .unlisted | .name .. | .literal .. => 1
  | .foreign _ _ parts => sizes parts + 1
  | .call _ _ args => sizes args + 1
  | .unary _ _ e | .addressOf _ e | .move _ e => e.size + 1
  | .member _ base _ => base.size + 1
  | .binary _ _ l r | .assign _ _ l r | .index _ l r | .logic _ _ l r => l.size + r.size + 1

/-- The number of nodes of several expressions. -/
def sizes : List Expr → Nat
  | [] => 0
  | e :: rest => e.size + sizes rest

end

/-- The nodes of the expressions on a stack, each before its parts, parts in order. A round takes
one expression from the stack, so as many rounds as the stack has nodes always do. -/
def preorderOf : (rounds : Nat) → List Expr → List Expr
  | 0, _ => []
  | _, [] => []
  | rounds + 1, e :: stack =>
    match e with
    | .absent | .stray _ | .unlisted => preorderOf rounds stack
    | e => e :: preorderOf rounds (e.parts ++ stack)

/-- The nodes of an expression, each before its parts, parts in order. -/
def preorder (e : Expr) : List Expr := preorderOf e.size [e]

mutual

/-- The nodes of an expression by recursion, each before its parts, parts in order. -/
def nodes : Expr → List Expr
  | .absent | .stray _ | .unlisted => []
  | .name p id => [.name p id]
  | .literal p v => [.literal p v]
  | .foreign p k parts => .foreign p k parts :: nodesAll parts
  | .call p f args => .call p f args :: nodesAll args
  | .unary p op e => .unary p op e :: e.nodes
  | .addressOf p e => .addressOf p e :: e.nodes
  | .move p e => .move p e :: e.nodes
  | .member p base f => .member p base f :: base.nodes
  | .binary p op l r => .binary p op l r :: (l.nodes ++ r.nodes)
  | .assign p op l r => .assign p op l r :: (l.nodes ++ r.nodes)
  | .index p l r => .index p l r :: (l.nodes ++ r.nodes)
  | .logic p c l r => .logic p c l r :: (l.nodes ++ r.nodes)

/-- The nodes of several expressions, one after the other. -/
def nodesAll : List Expr → List Expr
  | [] => []
  | e :: rest => e.nodes ++ nodesAll rest

end

mutual

/-- The fault that a walk through the nodes meets first. -/
def flaw? : Expr → Option Fault
  | .absent | .name .. | .literal .. => none
  | .stray _ => some .partless
  | .unlisted => some .mistyped
  | .foreign _ _ parts => flawAmong? parts
  | .call _ _ args => flawAmong? args
  | .unary _ _ e | .addressOf _ e | .move _ e => e.flaw?
  | .member _ base _ => base.flaw?
  | .binary _ _ l r | .assign _ _ l r | .index _ l r | .logic _ _ l r => l.flaw? <|> r.flaw?

/-- The fault that a walk through several expressions meets first. -/
def flawAmong? : List Expr → Option Fault
  | [] => none
  | e :: rest => e.flaw? <|> flawAmong? rest

end

mutual

/-- Whether a connective occurs. The search runs through the nodes in the order of `preorder`, ends
at the first connective and fails at a flaw before it. -/
def shortCircuits : Expr → Except Fault Bool
  | .absent | .name .. | .literal .. => .ok false
  | .stray _ => .error .partless
  | .unlisted => .error .mistyped
  | .logic .. => .ok true
  | .foreign _ _ parts => someShortCircuits parts
  | .call _ _ args => someShortCircuits args
  | .unary _ _ e | .addressOf _ e | .move _ e => e.shortCircuits
  | .member _ base _ => base.shortCircuits
  | .binary _ _ l r | .assign _ _ l r | .index _ l r => do
    if ← l.shortCircuits then pure true else r.shortCircuits

/-- Whether a connective occurs in one of several expressions. -/
def someShortCircuits : List Expr → Except Fault Bool
  | [] => .ok false
  | e :: rest => do
    if ← e.shortCircuits then pure true else someShortCircuits rest

end

/-- The name at the root of a path of members and items, or null if there is none. -/
def root : Expr → Value
  | .name _ id => id
  | .member _ base _ => base.root
  | .index _ base _ => base.root
  | _ => .null

end Expr

end LastUse
