import LastUse.Expr.Text

/-!
# Statements

The statements of a function body, read from a tree with `Stmt.ofValue`. Every statement keeps its
place.

As with expressions, what is no statement is kept where one is meant to stand: nothing (`absent`),
other values (`stray`), statements that are no list (`unlisted`), and statements whose name or
label is no text (`misnamed`). An initialiser of a `for` loop is either a statement that runs
before the loop or an expression that the loop evaluates itself.
-/

namespace LastUse

/-- A statement, or what stands in the place of one. -/
inductive Stmt where
  /-- Nothing. -/
  | absent
  /-- A value that is no statement, by the name of its type. -/
  | stray (type : String)
  /-- Statements that cannot be listed. -/
  | unlisted
  /-- A statement whose name, variable or label is no text. -/
  | misnamed (kind : Kind)
  | block (place : Path) (body : List Stmt)
  | exprStmt (place : Path) (expr : Expr)
  | decl (place : Path) (name : String) (init : Expr)
  | ifElse (place : Path) (cond : Expr) (thenArm elseArm : Stmt)
  | whileLoop (place : Path) (cond : Expr) (body : Stmt)
  | doWhile (place : Path) (body : Stmt) (cond : Expr)
  | forLoop (place : Path) (before : Stmt) (init cond step : Expr) (body : Stmt)
  | foreach (place : Path) (var : String) (iterable : Expr) (body : Stmt)
  | switch (place : Path) (subject : Expr) (arms : List Stmt)
  | caseArm (place : Path) (isDefault : Bool) (body : List Stmt)
  | labeled (place : Path) (label : String) (body : Stmt)
  | goto (place : Path) (label : String)
  | ret (place : Path) (value : Expr)
  | brk (place : Path)
  | cont (place : Path)
deriving Repr, Inhabited

namespace Stmt

/-- Whether there is nothing. -/
def isAbsent : Stmt → Bool
  | .absent => true
  | _ => false

/-- The name of the type of what stands there. -/
def typeName : Stmt → String
  | .absent | .unlisted => Scalar.null.typeName
  | .stray t => t
  | .misnamed k => k.tag
  | .block .. => Kind.block.tag
  | .exprStmt .. => Kind.exprStmt.tag
  | .decl .. => Kind.decl.tag
  | .ifElse .. => Kind.ifElse.tag
  | .whileLoop .. => Kind.whileLoop.tag
  | .doWhile .. => Kind.doWhile.tag
  | .forLoop .. => Kind.forLoop.tag
  | .foreach .. => Kind.foreach.tag
  | .switch .. => Kind.switch.tag
  | .caseArm .. => Kind.caseArm.tag
  | .labeled .. => Kind.labeled.tag
  | .goto .. => Kind.goto.tag
  | .ret .. => Kind.ret.tag
  | .brk .. => Kind.brk.tag
  | .cont .. => Kind.cont.tag

/-- Whether a value is a node of a statement. -/
def isStmtValue : Value → Bool
  | .node k _ => k.isStmt
  | _ => false

/-- A statement with a text for its name, or a misnamed one. -/
def named (k : Kind) (name : Value) (make : String → Stmt) : Stmt :=
  match name with
  | .scalar (.str s) => make s
  | _ => .misnamed k

mutual

/-- What a value at a place is as a statement. -/
def ofValue (p : Path) : Value → Stmt
  | .scalar .null => .absent
  | .scalar s => .stray s.typeName
  | .list items => .stray (Value.list items).typeName
  | .node .block [body] => .block p (ofList (p.field "body") body)
  | .node .exprStmt [e] => .exprStmt p (.ofValue (p.field "expr") e)
  | .node .decl [name, init] =>
    named .decl name fun s => .decl p s (.ofValue (p.field "init") init)
  | .node .ifElse [cond, thenArm, elseArm] =>
    .ifElse p (.ofValue (p.field "cond") cond) (ofValue (p.field "then") thenArm)
      (ofValue (p.field "orelse") elseArm)
  | .node .whileLoop [cond, body] =>
    .whileLoop p (.ofValue (p.field "cond") cond) (ofValue (p.field "body") body)
  | .node .doWhile [body, cond] =>
    .doWhile p (ofValue (p.field "body") body) (.ofValue (p.field "cond") cond)
  | .node .forLoop [init, cond, step, body] =>
    let before := ofValue (p.field "init") init
    .forLoop p (if isStmtValue init then before else .absent)
      (if isStmtValue init then .absent else .ofValue (p.field "init") init)
      (.ofValue (p.field "cond") cond) (.ofValue (p.field "step") step)
      (ofValue (p.field "body") body)
  | .node .foreach [var, iterable, body] =>
    let body := ofValue (p.field "body") body
    named .foreach var fun s => .foreach p s (.ofValue (p.field "iterable") iterable) body
  | .node .switch [subject, cases] =>
    .switch p (.ofValue (p.field "subject") subject) (ofList (p.field "cases") cases)
  | .node .caseArm [values, body] => .caseArm p (!values.truthy) (ofList (p.field "body") body)
  | .node .labeled [label, body] =>
    let body := ofValue (p.field "stmt") body
    named .labeled label fun s => .labeled p s body
  | .node .goto [label] => named .goto label fun s => .goto p s
  | .node .ret [value] => .ret p (.ofValue (p.field "value") value)
  | .node .brk _ => .brk p
  | .node .cont _ => .cont p
  | .node k _ => .stray k.tag

/-- The statements that a value lists. -/
def ofList (p : Path) : Value → List Stmt
  | .list items => ofItems p 0 items
  | .scalar (.str s) => s.toList.map fun _ => .stray (Scalar.str s).typeName
  | _ => [.unlisted]

/-- The items of a list, from an index on. -/
def ofItems (p : Path) (i : Nat) : List Value → List Stmt
  | [] => []
  | v :: rest => ofValue (p.item i) v :: ofItems p (i + 1) rest

end

/-- The text of a statement's head, which labels its sites. -/
def headText : Stmt → Except Fault String
  | .exprStmt _ e => do
    let e ← e.text
    pure (e ++ ";")
  | .decl _ name .absent => .ok ("auto " ++ name ++ ";")
  | .decl _ name init => do
    let init ← init.text
    pure ("auto " ++ name ++ " = " ++ init ++ ";")
  | .ifElse _ cond _ _ => do
    let cond ← cond.text
    pure ("if(" ++ cond ++ ")")
  | .whileLoop _ cond _ | .doWhile _ _ cond => do
    let cond ← cond.text
    pure ("while(" ++ cond ++ ")")
  | .forLoop _ _ _ cond step _ => do
    let cond ← cond.text
    let step ← step.text
    pure ("for(; " ++ cond ++ "; " ++ step ++ ")")
  | .foreach _ var iterable _ => do
    let iterable ← iterable.text
    pure ("foreach(" ++ var ++ "; " ++ iterable ++ ")")
  | .switch _ subject _ => do
    let subject ← subject.text
    pure ("switch(" ++ subject ++ ")")
  | .labeled _ label _ => .ok (label ++ ":")
  | .goto _ label => .ok ("goto " ++ label ++ ";")
  | .ret _ .absent => .ok "return;"
  | .ret _ value => do
    let value ← value.text
    pure ("return " ++ value ++ ";")
  | .brk _ => .ok "break;"
  | .cont _ => .ok "continue;"
  | .misnamed _ | .unlisted => .error .mistyped
  | s => .ok s.typeName

end Stmt

end LastUse
