import LastUse.Flow.Condition
import LastUse.Stmt.Basic

/-!
# The flow through a statement

`Stmt.flow` drafts the flow through a statement: the sites of its own expressions, then those of
the statements in it, in the order in which they stand. The frontier that comes out holds the edges
to whatever statement is next; jumps leave it empty.
-/

namespace LastUse

/-- Where a statement stands. -/
structure Scope where
  /-- Whether it stands in a loop. -/
  inLoop : Bool
  /-- Whether it stands in a loop or a switch. -/
  breakable : Bool
  /-- Whether edges to the exit are drafted. Settings that cannot be read are a fault, which shows
  when it matters. -/
  exitEdges : Except Fault Bool

namespace Scope

/-- The scope of the outermost statement. -/
def outermost (exitEdges : Except Fault Bool) : Scope := ⟨false, false, exitEdges⟩

/-- The scope of a loop's body. -/
def inLoopBody (sc : Scope) : Scope := ⟨true, true, sc.exitEdges⟩

/-- The scope of a switch's arms. -/
def inSwitchArm (sc : Scope) : Scope := ⟨sc.inLoop, true, sc.exitEdges⟩

/-- The kind of the sites that have no kind of their own. -/
def ordinaryKind (sc : Scope) : SiteKind := if sc.inLoop then .loopBody else .plain

end Scope

/-- What is known of the statements before one. -/
structure Cursor where
  /-- The ordinal of the next site. -/
  next : Nat
  /-- The labels that statements already carry. -/
  labels : List String
deriving Repr, Inhabited

/-- The cursor behind a draft. -/
def Cursor.after (c : Cursor) (d : Draft) : Cursor where
  next := c.next + d.sites.length
  labels := c.labels ++ d.labels.map (·.1)

/-- The flow through a part of a statement: its draft and the edges that leave it. -/
structure Passage where
  draft : Draft
  out : Frontier
deriving Repr, Inhabited

/-- The flow through the head of a statement. -/
structure Head where
  draft : Draft
  exits : Exits
deriving Repr, Inhabited

namespace Stmt

/-- The host of a statement's sites. -/
def host (sc : Scope) (s : Stmt) (place : Path) (kind : SiteKind) (inReturn : Bool) :
    Except Fault Host := do
  let label ← s.headText
  pure ⟨place, kind, label, sc.inLoop, inReturn⟩

/-- The flow through the head of a statement without an expression. -/
def bareHead (h : Host) (n : Nat) (fr : Frontier) : Head :=
  ⟨Draft.ofSite (h.fragment n) fr, .straight (onward n)⟩

/-- The flow through the head of a statement that evaluates an expression. -/
def evaluatingHead (h : Host) (e : Expr) (n : Nat) (fr : Frontier) : Except Fault Head := do
  let f ← e.flow h (n + 1) (some n) (onward n)
  pure ⟨Draft.ofSite (h.fragment n) fr ++ f.draft, f.exits⟩

/-- The flow through the head of a statement whose expression may be missing. -/
def optionalHead (h : Host) (e : Expr) (n : Nat) (fr : Frontier) : Except Fault Head :=
  if e.isAbsent then .ok (bareHead h n fr) else evaluatingHead h e n fr

/-- The flow through the header of a loop. Without a condition the loop is never left there. -/
def loopHead (h : Host) (cond : Expr) (n : Nat) (fr : Frontier) : Except Fault Head :=
  if cond.isAbsent then
    let head := bareHead h n fr
    .ok { head with exits := .forked head.exits.out [] }
  else evaluatingHead h cond n fr

/-- The flow through an initialiser that a loop evaluates itself, at a site of the loop outside of
it. -/
def initFlow (h : Host) (init : Expr) (n : Nat) (fr : Frontier) : Except Fault Passage :=
  if init.isAbsent then .ok ⟨{}, fr⟩
  else do
    let text ← init.text
    let head := h.site n h.kind (text ++ ";")
    let f ← init.flow h (n + 1) (some n) (onward n)
    pure ⟨Draft.ofSite head fr ++ f.draft, f.exits.out⟩

/-- The flow through the step of a loop. -/
def stepFlow (h : Host) (step : Expr) (n : Nat) (fr : Frontier) : Except Fault Passage :=
  if step.isAbsent then .ok ⟨{}, fr⟩
  else do
    let text ← step.text
    let f ← step.flow h (n + 1) (some n) (onward n)
    pure ⟨Draft.ofSite (h.site n .loopHeader text) fr ++ f.draft, f.exits.out⟩

/-- A loop that is tested before its body, from its header, its body and its step. -/
def closeLoop (place : Path) (n : Nat) (head : Head) (body step : Passage) : Passage :=
  let back := Draft.ofEdges (leadTo (labelled step.out .loopControl) (.site n))
  let whole := head.draft ++ body.draft ++ step.draft ++ back
  ⟨(whole.asLoop place).withoutBreaks.withoutContinues,
    labelled head.exits.no .negNext ++ body.draft.breaks⟩

/-- The edges into the part of a loop that follows its body. -/
def bodyEnd (body : Passage) : Frontier := body.out ++ labelled body.draft.continues .jumpNext

/-- The arms of a switch. -/
structure Arms where
  draft : Draft
  /-- The regions of the arms; cases that are joined by falling through share one. -/
  arms : List (List Region)
  /-- The edges that fall out of the last case. -/
  out : Frontier
  hasDefault : Bool
deriving Repr, Inhabited

/-- The arms of a switch from its first case and the others. If the flow falls through, the arm
goes on with the next case. -/
def Arms.cons (first : Passage) (isDefault : Bool) (rest : Arms) : Arms where
  draft := first.draft ++ rest.draft
  arms :=
    match first.out, rest.arms with
    | _ :: _, next :: others => (first.draft.region ++ next) :: others
    | _, others => first.draft.region :: others
  out := rest.out
  hasDefault := isDefault || rest.hasDefault

/-- A switch from its head and its arms. Without a default there is one more arm, which is
empty. -/
def closeSwitch (place : Path) (head : Head) (arms : Arms) : Passage :=
  let regions := if arms.hasDefault then arms.arms else arms.arms ++ [[]]
  let skip := if arms.hasDefault then [] else labelled head.exits.out .switchExit
  ⟨head.draft ++ (arms.draft.asBranch place regions).withoutBreaks,
    arms.out ++ arms.draft.breaks ++ skip⟩

mutual

/-- The flow through a statement that stands in a scope behind a cursor. The edges of the frontier
lead into it. -/
def flow (sc : Scope) : Stmt → Cursor → Frontier → Except Fault Passage
  | .absent, _, _ => .error (.malformed (.notAStatement Scalar.null.typeName))
  | .stray t, _, _ => .error (.malformed (.notAStatement t))
  | .unlisted, _, _ => .error .mistyped
  | .misnamed _, _, _ => .error .mistyped
  | .caseArm _ _ _, _, _ => .error (.malformed (.notAStatement Kind.caseArm.tag))
  | .block _ body, c, fr => flowAll sc body c fr
  | .exprStmt p e, c, fr => do
    let h ← host sc (.exprStmt p e) p sc.ordinaryKind false
    let head ← optionalHead h e c.next fr
    pure ⟨head.draft, head.exits.out⟩
  | .decl p name init, c, fr => do
    let h ← host sc (.decl p name init) p sc.ordinaryKind false
    let head ← optionalHead h init c.next fr
    pure ⟨head.draft, head.exits.out⟩
  | .ifElse p cond thenArm elseArm, c, fr => do
    let h ← host sc (.ifElse p cond thenArm elseArm) p sc.ordinaryKind false
    let head ← evaluatingHead h cond c.next fr
    let c := c.after head.draft
    let yes ← flow sc thenArm c (labelled head.exits.yes .posNext)
    let no ←
      match elseArm with
      | .absent => pure ⟨{}, labelled head.exits.no .negNext⟩
      | elseArm => flow sc elseArm (c.after yes.draft) (labelled head.exits.no .negNext)
    pure ⟨head.draft
        ++ (yes.draft ++ no.draft).asBranch p [yes.draft.region, no.draft.region],
      yes.out ++ no.out⟩
  | .whileLoop p cond body, c, fr => do
    let inner := sc.inLoopBody
    let h ← host inner (.whileLoop p cond body) p .loopHeader false
    let head ← loopHead h cond c.next fr
    let body ← flow inner body (c.after head.draft) (labelled head.exits.yes .posNext)
    pure (closeLoop p c.next head body ⟨{}, bodyEnd body⟩)
  | .forLoop p before init cond step body, c, fr => do
    let inner := sc.inLoopBody
    let first ←
      match before with
      | .absent => pure ⟨{}, fr⟩
      | before => flow sc before c fr
    let c := c.after first.draft
    let h ← host sc (.forLoop p before init cond step body) p sc.ordinaryKind false
    let start ← initFlow h init c.next first.out
    let c := c.after start.draft
    let h := { h with kind := .loopHeader, inLoop := true }
    let head ← loopHead h cond c.next start.out
    let afterHead := c.after head.draft
    let body ← flow inner body afterHead (labelled head.exits.yes .posNext)
    let step ← stepFlow h step (afterHead.after body.draft).next (bodyEnd body)
    let loop := closeLoop p c.next head body step
    pure ⟨first.draft ++ start.draft ++ loop.draft, loop.out⟩
  | .foreach p var iterable body, c, fr => do
    let inner := sc.inLoopBody
    let h ← host inner (.foreach p var iterable body) p .loopHeader false
    let head ← evaluatingHead h iterable c.next fr
    let head := { head with exits := .straight head.exits.out }
    let body ← flow inner body (c.after head.draft) (labelled head.exits.yes .posNext)
    pure (closeLoop p c.next head body ⟨{}, bodyEnd body⟩)
  | .doWhile p body cond, c, fr => do
    let inner := sc.inLoopBody
    let body' ← flow inner body c fr
    let h ← host inner (.doWhile p body cond) p .loopHeader false
    let head ← loopHead h cond (c.after body'.draft).next (bodyEnd body')
    let back := Draft.ofEdges (leadTo (labelled head.exits.yes .loopControl) (.site c.next))
    let whole := body'.draft ++ head.draft ++ back
    pure ⟨(whole.asLoop p).withoutBreaks.withoutContinues,
      labelled head.exits.no .negNext ++ body'.draft.breaks⟩
  | .switch p subject arms, c, fr => do
    let h ← host sc (.switch p subject arms) p sc.ordinaryKind false
    let head ← evaluatingHead h subject c.next fr
    let arms ← flowArms sc.inSwitchArm arms (c.after head.draft) head.exits.out []
    pure (closeSwitch p head arms)
  | .labeled p label body, c, fr => do
    if c.labels.contains label then .error (.malformed (.labelTwice label))
    let h ← host sc (.labeled p label body) p .label false
    let site := { h.fragment c.next with labelName := some label }
    let head := { Draft.ofSite site fr with labels := [(label, c.next)] }
    match body with
    | .absent => pure ⟨head, onward c.next⟩
    | body =>
      let rest ← flow sc body (c.after head) (onward c.next)
      pure ⟨head ++ rest.draft, rest.out⟩
  | .goto p label, c, fr => do
    let h ← host sc (.goto p label) p .goto false
    pure ⟨{ (bareHead h c.next fr).draft with gotos := [(c.next, label)] }, []⟩
  | .ret p value, c, fr => do
    let h ← host sc (.ret p value) p .ret true
    let head ← optionalHead h value c.next fr
    let exits ← sc.exitEdges
    let leave := if exits then leadTo (labelled head.exits.out .returnExit) .exit else []
    pure ⟨head.draft ++ { edges := leave, region := [.ret p] }, []⟩
  | .brk p, c, fr => do
    if !sc.breakable then .error (.malformed .breakOutside)
    let h ← host sc (.brk p) p sc.ordinaryKind false
    pure ⟨{ (bareHead h c.next fr).draft with breaks := labelled (onward c.next) .jumpNext }, []⟩
  | .cont p, c, fr => do
    if !sc.inLoop then .error (.malformed .continueOutside)
    let h ← host sc (.cont p) p sc.ordinaryKind false
    pure ⟨{ (bareHead h c.next fr).draft with continues := labelled (onward c.next) .jumpNext },
      []⟩

/-- The flow through several statements, one after the other. -/
def flowAll (sc : Scope) : List Stmt → Cursor → Frontier → Except Fault Passage
  | [], _, fr => .ok ⟨{}, fr⟩
  | s :: rest, c, fr => do
    let first ← flow sc s c fr
    let rest ← flowAll sc rest (c.after first.draft) first.out
    pure ⟨first.draft ++ rest.draft, rest.out⟩

/-- The flow through the arms of a switch. Each case is entered from the subject, and from the case
before it if the flow falls through. -/
def flowArms (sc : Scope) : List Stmt → Cursor → (subject fallthrough : Frontier) →
    Except Fault Arms
  | [], _, _, fallthrough => .ok ⟨{}, [], fallthrough, false⟩
  | .caseArm _ isDefault body :: rest, c, subject, fallthrough => do
    let first ← flowAll sc body c (labelled subject .switchCase ++ labelled fallthrough .nextLine)
    let rest ← flowArms sc rest (c.after first.draft) subject first.out
    pure (Arms.cons first isDefault rest)
  | .unlisted :: _, _, _, _ => .error .mistyped
  | arm :: _, _, _, _ => .error (.malformed (.armNotACase arm.typeName))

end

end Stmt

end LastUse
