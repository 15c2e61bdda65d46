import LastUse.Expr.Text
import LastUse.Flow.Draft

/-!
# The flow through an expression

Each operand of a connective is evaluated at a site of its own. The parts of a statement's
expressions without connectives are evaluated at a fragment: a site of the statement that stays
open until an operand comes between. `Expr.flow` drafts the flow through an expression from left to
right.
-/

namespace LastUse

/-- What the sites of a statement have in common. -/
structure Host where
  stmt : Path
  kind : SiteKind
  label : String
  inLoop : Bool
  inReturn : Bool
deriving Repr, Inhabited

/-- A site of the statement. -/
def Host.site (h : Host) (ordinal : Nat) (kind : SiteKind) (label : String) : Site where
  ordinal := ordinal
  kind := kind
  stmt := h.stmt
  label := label
  inLoop := h.inLoop
  inReturn := h.inReturn
  labelName := none
  exprs := []

/-- A fragment of the statement. -/
def Host.fragment (h : Host) (ordinal : Nat) : Site := h.site ordinal h.kind h.label

/-- The ways out of an expression. -/
inductive Exits where
  /-- One way, whatever the value. -/
  | straight (out : Frontier)
  /-- A way for each truth value. -/
  | forked (yes no : Frontier)
deriving Repr, Inhabited

namespace Exits

/-- The way out if the expression is true. -/
def yes : Exits → Frontier
  | .straight out => out
  | .forked yes _ => yes

/-- The way out if the expression is false. -/
def no : Exits → Frontier
  | .straight out => out
  | .forked _ no => no

/-- The way out if only the value counts. -/
def out : Exits → Frontier
  | .straight out => out
  | .forked yes no => labelled (yes ++ no) .nextLine

end Exits

/-- The flow through an expression. -/
structure Flow where
  draft : Draft
  /-- The fragment that is open behind the expression. -/
  fragment : Option Nat
  exits : Exits
deriving Repr, Inhabited

namespace Flow

/-- The flow through an open fragment, which is a new site at `n` if there is none. -/
def atFragment (h : Host) (n : Nat) (fragment : Option Nat) (fr : Frontier)
    (evaluated : Nat → Draft) : Flow :=
  match fragment with
  | some o => ⟨evaluated o, some o, .straight fr⟩
  | none => ⟨Draft.ofSite (h.fragment n) fr ++ evaluated n, some n, .straight (onward n)⟩

/-- The flow through an expression without connectives. -/
def plain (h : Host) (e : Expr) (n : Nat) (fragment : Option Nat) (fr : Frontier) : Flow :=
  atFragment h n fragment fr fun o => Draft.ofExpr o e

/-- The flow through a node whose parts have been passed; a fragment of the statement owns the
node. -/
def finish (h : Host) (place : Path) (n : Nat) (parts : Flow) : Flow :=
  let last := atFragment h (n + parts.draft.sites.length) parts.fragment parts.exits.out
    fun o => Draft.ofOwned place o
  { last with draft := parts.draft ++ last.draft }

/-- The flow through two expressions, the second from where the first ends. -/
def andThen (n : Nat) (first : Flow) (second : Nat → Option Nat → Frontier → Except Fault Flow) :
    Except Fault Flow := do
  let next ← second (n + first.draft.sites.length) first.fragment first.exits.out
  pure { next with draft := first.draft ++ next.draft }

/-- The flow through an operand of a connective. An operand that is no connective itself has a site
of its own; `flow` drafts it from there. -/
def ofOperand (h : Host) (c : Connective) (e : Expr) (n : Nat) (fr : Frontier)
    (flow : Nat → Option Nat → Frontier → Except Fault Flow) : Except Fault Flow :=
  match e with
  | .logic .. => flow n none fr
  | e => do
    let label ← e.text
    let inner ← flow (n + 1) (some n) (onward n)
    pure { inner with draft := Draft.ofSite (h.site n c.siteKind label) fr ++ inner.draft }

/-- The ways out of a connective, from those of its operands. -/
def combine : Connective → Exits → Exits → Exits
  | .and, left, right => .forked right.yes (labelled left.no .negNext ++ right.no)
  | .or, left, right => .forked (labelled left.yes .posNext ++ right.yes) right.no

/-- The way from the left operand of a connective to the right one. -/
def entry : Connective → Exits → Frontier
  | .and, left => labelled left.yes .posNext
  | .or, left => labelled left.no .negNext

end Flow

namespace Expr

mutual

/-- The flow through an expression of the statement `h`: the next site has the ordinal `n`, a
fragment may be open, and the edges of the frontier lead into the expression. -/
def flow (h : Host) : Expr → Nat → Option Nat → Frontier → Except Fault Flow
  | .absent, _, _, _ => .error (.malformed (.notAnExpression Scalar.null.typeName))
  | .stray t, _, _, _ => .error (.malformed (.notAnExpression t))
  | .unlisted, _, _, _ => .error .mistyped
  | .foreign _ k _, _, _, _ => .error (.malformed (.notAnExpression k.tag))
  | .name p id, n, fragment, fr => .ok (.plain h (.name p id) n fragment fr)
  | .literal p v, n, fragment, fr => .ok (.plain h (.literal p v) n fragment fr)
  | .call p f args, n, fragment, fr => do
    if ← someShortCircuits args then
      let parts ← flowAll h args n fragment fr
      pure (.finish h p n parts)
    else pure (.plain h (.call p f args) n fragment fr)
  | .unary p op e, n, fragment, fr => do
    if ← e.shortCircuits then
      let part ← flow h e n fragment fr
      pure (.finish h p n part)
    else pure (.plain h (.unary p op e) n fragment fr)
  | .binary p op l r, n, fragment, fr => do
    if ← (Expr.binary p op l r).shortCircuits then
      let left ← flow h l n fragment fr
      let parts ← left.andThen n (flow h r)
      pure (.finish h p n parts)
    else pure (.plain h (.binary p op l r) n fragment fr)
  | .assign p op l r, n, fragment, fr => do
    if ← (Expr.assign p op l r).shortCircuits then
      let left ← flow h l n fragment fr
      let parts ← left.andThen n (flow h r)
      pure (.finish h p n parts)
    else pure (.plain h (.assign p op l r) n fragment fr)
  | .member p base f, n, fragment, fr => do
    if ← base.shortCircuits then
      let part ← flow h base n fragment fr
      pure (.finish h p n part)
    else pure (.plain h (.member p base f) n fragment fr)
  | .index p l r, n, fragment, fr => do
    if ← (Expr.index p l r).shortCircuits then
      let left ← flow h l n fragment fr
      let parts ← left.andThen n (flow h r)
      pure (.finish h p n parts)
    else pure (.plain h (.index p l r) n fragment fr)
  | .addressOf p e, n, fragment, fr => do
    if ← e.shortCircuits then .error (.malformed (.conditionalOperand .addressOf))
    else pure (.plain h (.addressOf p e) n fragment fr)
  | .move p e, n, fragment, fr => do
    if ← e.shortCircuits then .error (.malformed (.conditionalOperand .move))
    else pure (.plain h (.move p e) n fragment fr)
  | .logic _ c l r, n, _, fr => do
    let left ← Flow.ofOperand h c l n fr (flow h l)
    let right ← Flow.ofOperand h c r (n + left.draft.sites.length)
        (Flow.entry c left.exits) (flow h r)
    pure ⟨left.draft ++ right.draft, none, Flow.combine c left.exits right.exits⟩

/-- The flow through several expressions, one after the other. -/
def flowAll (h : Host) : List Expr → Nat → Option Nat → Frontier → Except Fault Flow
  | [], _, fragment, fr => .ok ⟨{}, fragment, .straight fr⟩
  | e :: rest, n, fragment, fr => do
    let first ← flow h e n fragment fr
    first.andThen n (flowAll h rest)

end

end Expr

end LastUse
