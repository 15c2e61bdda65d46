import LastUse.Expr.Basic
import LastUse.Tree.Sum

/-!
# The text of an expression

Expressions as they appear in the labels of sites, close to the way they are written in a program.
A name is whatever value it has, and an operator is added to its operand, so what an expression is
called (`Expr.caption`) need not be a text. Where it is one, it is the text of the expression.
-/

namespace LastUse

/-- The text that a value holds. -/
def Value.text : Value → Except Fault String
  | .scalar (.str s) => .ok s
  | _ => .error .mistyped

/-- The texts that values hold. -/
def Value.texts : List Value → Except Fault (List String)
  | [] => .ok []
  | v :: rest => do
    let t ← v.text
    let ts ← texts rest
    pure (t :: ts)

namespace Expr

mutual

/-- What an expression is called. Of what is no expression it is the name of the type. -/
def caption : Expr → Except Fault Value
  | .absent => .ok (.str "")
  | .stray t => .ok (.str t)
  | .unlisted => .error .mistyped
  | .foreign _ k _ => .ok (.str k.tag)
  | .name _ id => .ok id
  | .literal _ v => .ok (.str v.spelling)
  | .call _ f args => do
    let f ← f.text
    let args ← captions args
    let args ← Value.texts args
    pure (.str (f ++ "(" ++ Text.joined ", " args ++ ")"))
  | .unary _ op e => do
    let e ← e.caption
    op.sum e
  | .binary _ op l r | .assign _ op l r => do
    let l ← l.caption
    let l ← l.text
    let op ← op.text
    let r ← r.caption
    let r ← r.text
    pure (.str (l ++ " " ++ op ++ " " ++ r))
  | .member _ base field => do
    let base ← base.caption
    let base ← base.text
    let field ← field.text
    pure (.str (base ++ "." ++ field))
  | .index _ base position => do
    let base ← base.caption
    let base ← base.text
    let position ← position.caption
    let position ← position.text
    pure (.str (base ++ "[" ++ position ++ "]"))
  | .addressOf _ e => do
    let e ← e.caption
    let e ← e.text
    pure (.str ("&" ++ e))
  | .move _ e => do
    let e ← e.caption
    let e ← e.text
    pure (.str ("move(" ++ e ++ ")"))
  | .logic _ c l r => do
    let l ← l.caption
    let l ← l.text
    let r ← r.caption
    let r ← r.text
    pure (.str ("(" ++ l ++ " " ++ c.sign ++ " " ++ r ++ ")"))

/-- What several expressions are called. -/
def captions : List Expr → Except Fault (List Value)
  | [] => .ok []
  | e :: rest => do
    let c ← e.caption
    let cs ← captions rest
    pure (c :: cs)

end

/-- The text of an expression. -/
def text (e : Expr) : Except Fault String := do
  let c ← e.caption
  c.text

end Expr

end LastUse
