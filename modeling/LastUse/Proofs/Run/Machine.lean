import LastUse.Flow.Site
import LastUse.Stmt.Basic

/-!
# Executions of a function body

A machine that runs the body of a function. Its state is the stack of the tasks still to do
(`Task`). Some tasks unfold to others, in one or in several ways (`Task.ways`); others visit a
site, leave the function or jump (`Step`). The state of no variable is kept: a condition, a step of
a `foreach` and the selection of a case may go either way each time.

The sites of a statement have consecutive ordinals, in the order in which its text stands. A task
knows the ordinal of its first site; `Stmt.count` says how many there are and `Stmt.places` which
statements they belong to.
-/

namespace LastUse

/-! ## Expressions -/

/-- An expression as control sees it. -/
inductive Shape where
  /-- A node whose parts are evaluated from left to right, and then the node itself. -/
  | node (parts : List Shape)
  /-- A connective, whose right operand is evaluated only if the left one does not settle the
  result. -/
  | fork (connective : Connective) (left right : Shape)
deriving Repr, Inhabited

namespace Expr

mutual

/-- The shape of an expression. -/
def shape : Expr → Shape
  | .absent | .stray _ | .unlisted | .name .. | .literal .. => .node []
  | .foreign _ _ parts => .node (shapes parts)
  | .call _ _ args => .node (shapes args)
  | .unary _ _ e | .addressOf _ e | .move _ e => .node [e.shape]
  | .member _ base _ => .node [base.shape]
  | .binary _ _ l r | .assign _ _ l r | .index _ l r => .node [l.shape, r.shape]
  | .logic _ c l r => .fork c l.shape r.shape

/-- The shapes of several expressions. -/
def shapes : List Expr → List Shape
  | [] => []
  | e :: rest => e.shape :: shapes rest

end

end Expr

namespace Shape

/-- Whether it is a connective with its operands. -/
def isFork : Shape → Bool
  | .node _ => false
  | .fork .. => true

/-- Whether a fragment is open behind several expressions. Each node is evaluated at the open
fragment, or opens one; the operands of a connective close it. -/
def staysOpen : List Shape → Bool → Bool
  | [], opened => opened
  | e :: rest, _ => staysOpen rest (!e.isFork)

mutual

/-- The number of the sites of an expression behind a fragment that may be open. -/
def count : Shape → Bool → Nat
  | .node parts, opened => countAll parts opened + (if staysOpen parts opened then 0 else 1)
  | .fork _ l r, _ =>
    (if l.isFork then 0 else 1) + l.count true + ((if r.isFork then 0 else 1) + r.count true)

/-- The number of the sites of several expressions. -/
def countAll : List Shape → Bool → Nat
  | [], _ => 0
  | e :: rest, opened => e.count opened + countAll rest (!e.isFork)

end

/-- The number of the sites of an operand. One that is no connective itself has a site of its
own. -/
def operandCount (e : Shape) : Nat := (if e.isFork then 0 else 1) + e.count true

end Shape

/-! ## Tasks -/

/-- What the machine has still to do. The numbers are the ordinals of the first sites. -/
inductive Task where
  /-- Visit a site. -/
  | visit (n : Nat)
  /-- Evaluate an expression, at the open fragment if there is one, and go on as its value says. -/
  | eval (e : Shape) (n : Nat) (opened : Bool) (yes no : List Task)
  /-- Evaluate an operand of a connective, and go on as its value says. -/
  | operand (e : Shape) (n : Nat) (yes no : List Task)
  /-- Evaluate several expressions for their values. -/
  | evalAll (es : List Shape) (n : Nat) (opened : Bool)
  /-- Go on in one of two ways. -/
  | either (yes no : List Task)
  | stmt (s : Stmt) (n : Nat)
  | stmts (ss : List Stmt) (n : Nat)
  /-- Select one of the cases of a switch, or none if that is allowed. -/
  | select (arms : List Stmt) (n : Nat) (skips : Bool)
  /-- Run a loop. -/
  | loop (s : Stmt) (n : Nat)
  /-- Run the rounds of a loop. -/
  | round (s : Stmt) (n : Nat)
  /-- The end of the innermost loop or switch, where a `break` goes on. -/
  | breakTarget
  /-- The end of the body of the innermost loop, where a `continue` goes on. -/
  | continueTarget
  | brk
  | cont
  | goto (label : String)
  /-- Leave the function. -/
  | leave
deriving Repr, Inhabited

/-- The tasks of an expression. The right operand of a connective is evaluated in one case only. -/
def Shape.tasks : Shape → Nat → Bool → (yes no : List Task) → List Task
  | .node parts, n, opened, yes, no =>
    .evalAll parts n opened ::
      ((if staysOpen parts opened then [] else [.visit (n + countAll parts opened)])
        ++ [.either yes no])
  | .fork .and l r, n, _, yes, no => [.operand l n [.operand r (n + l.operandCount) yes no] no]
  | .fork .or l r, n, _, yes, no => [.operand l n yes [.operand r (n + l.operandCount) yes no]]

namespace Expr

/-- The number of the sites of an expression that is evaluated from a site of its own on. -/
def headCount (e : Expr) : Nat := 1 + e.shape.count true

/-- The tasks of an expression that is evaluated from a site of its own on. -/
def head (e : Expr) (n : Nat) (yes no : List Task) : List Task :=
  [.visit n, .eval e.shape (n + 1) true yes no]

/-- The tasks of the condition of a loop. Without a condition the loop goes on. -/
def guard (cond : Expr) (n : Nat) (yes no : List Task) : List Task :=
  if cond.isAbsent then .visit n :: yes else cond.head n yes no

/-- The number of the sites of an initialiser or a step, which may be missing. -/
def sideCount (e : Expr) : Nat := if e.isAbsent then 0 else e.headCount

/-- The tasks of an initialiser or a step. -/
def side (e : Expr) (n : Nat) : List Task := if e.isAbsent then [] else e.head n [] []

end Expr

namespace Stmt

/-- Whether a case of a switch is the default. -/
def isDefault : Stmt → Bool
  | .caseArm _ isDefault _ => isDefault
  | _ => false

mutual

/-- The number of the sites of a statement. -/
def count : Stmt → Nat
  | .absent | .stray _ | .unlisted | .misnamed _ => 0
  | .block _ body | .caseArm _ _ body => countAll body
  | .exprStmt _ e | .decl _ _ e | .ret _ e => e.headCount
  | .ifElse _ cond thenArm elseArm => cond.headCount + thenArm.count + elseArm.count
  | .whileLoop _ e body | .foreach _ _ e body => e.headCount + body.count
  | .doWhile _ body cond => body.count + cond.headCount
  | .forLoop _ before init cond step body =>
    before.count + init.sideCount + (cond.headCount + body.count + step.sideCount)
  | .switch _ subject arms => subject.headCount + countAll arms
  | .labeled _ _ body => 1 + body.count
  | .goto .. | .brk _ | .cont _ => 1

/-- The number of the sites of several statements. -/
def countAll : List Stmt → Nat
  | [] => 0
  | s :: rest => s.count + countAll rest

end

mutual

/-- The places of the statements that the sites of a statement belong to, in order. -/
@[simp] def places : Stmt → List Path
  | .absent | .stray _ | .unlisted | .misnamed _ => []
  | .block _ body | .caseArm _ _ body => placesAll body
  | .exprStmt p e | .decl p _ e | .ret p e => List.replicate e.headCount p
  | .ifElse p cond thenArm elseArm =>
    List.replicate cond.headCount p ++ (thenArm.places ++ elseArm.places)
  | .whileLoop p e body | .foreach p _ e body => List.replicate e.headCount p ++ body.places
  | .doWhile p body cond => body.places ++ List.replicate cond.headCount p
  | .forLoop p before init cond step body =>
    before.places ++ List.replicate init.sideCount p
      ++ (List.replicate cond.headCount p ++ body.places ++ List.replicate step.sideCount p)
  | .switch p subject arms => List.replicate subject.headCount p ++ placesAll arms
  | .labeled p _ body => p :: body.places
  | .goto p _ | .brk p | .cont p => [p]

/-- The places of the statements that the sites of several statements belong to. -/
@[simp] def placesAll : List Stmt → List Path
  | [] => []
  | s :: rest => s.places ++ placesAll rest

end

mutual

/-- A statement has as many places as sites. -/
theorem length_places : ∀ {s : Stmt}, s.places.length = s.count
  | .absent | .stray _ | .unlisted | .misnamed _ => by simp [count]
  | .block _ body | .caseArm _ _ body => by rw [places, count, length_placesAll]
  | .exprStmt .. | .decl .. | .ret .. | .goto .. | .brk _ | .cont _ => by simp [count]
  | .ifElse _ _ thenArm elseArm => by
    simp [count, length_places (s := thenArm), length_places (s := elseArm), Nat.add_assoc]
  | .whileLoop _ _ body | .foreach _ _ _ body | .doWhile _ body _ => by
    simp [count, length_places (s := body)]
  | .forLoop _ before _ _ _ body => by
    simp [count, length_places (s := before), length_places (s := body), Nat.add_assoc]
  | .switch .. => by simp [count, length_placesAll]
  | .labeled _ _ body => by simp [count, length_places (s := body), Nat.add_comm]

/-- Several statements have as many places as sites. -/
theorem length_placesAll : ∀ {ss : List Stmt}, (placesAll ss).length = countAll ss
  | [] => rfl
  | s :: rest => by simp [countAll, length_places (s := s), length_placesAll]

end

/-- The tasks of a round of a loop, and of the rounds after it. -/
def round (s : Stmt) (n : Nat) : List Task :=
  match s with
  | .whileLoop _ cond body =>
    cond.guard n [.stmt body (n + cond.headCount), .continueTarget, .round s n] []
  | .doWhile _ body cond =>
    .stmt body n :: .continueTarget :: cond.guard (n + body.count) [.round s n] []
  | .forLoop _ _ _ cond step body =>
    let next := n + cond.headCount + body.count
    cond.guard n
      (.stmt body (n + cond.headCount) :: .continueTarget :: (step.side next ++ [.round s n])) []
  | .foreach _ _ iterable body =>
    iterable.head n [] []
      ++ [.either [.stmt body (n + iterable.headCount), .continueTarget, .round s n] []]
  | _ => []

/-- The tasks of a statement. -/
def tasks (s : Stmt) (n : Nat) : List Task :=
  match s with
  | .absent | .stray _ | .unlisted | .misnamed _ => []
  | .block _ body | .caseArm _ _ body => [.stmts body n]
  | .exprStmt _ e | .decl _ _ e => e.head n [] []
  | .ifElse _ cond thenArm elseArm =>
    cond.head n [.stmt thenArm (n + cond.headCount)]
      [.stmt elseArm (n + cond.headCount + thenArm.count)]
  | .whileLoop .. | .doWhile .. | .foreach .. => [.loop s n]
  | .forLoop _ before init _ _ _ =>
    .stmt before n :: (init.side (n + before.count)
      ++ [.loop s (n + before.count + init.sideCount)])
  | .switch _ subject arms =>
    subject.head n [] []
      ++ [.select arms (n + subject.headCount) (!arms.any isDefault), .breakTarget]
  | .labeled _ _ body => [.visit n, .stmt body (n + 1)]
  | .goto _ label => [.visit n, .goto label]
  | .ret _ value => value.head n [] [] ++ [.leave]
  | .brk _ => [.visit n, .brk]
  | .cont _ => [.visit n, .cont]

mutual

/-- The tasks from a label in a statement to the end of the statement, if the label stands
there. -/
def entry (label : String) : Stmt → Nat → Option (List Task)
  | .absent, _ | .stray _, _ | .unlisted, _ | .misnamed _, _ | .exprStmt _ _, _ | .decl _ _ _, _
  | .goto _ _, _ | .ret _ _, _ | .brk _, _ | .cont _, _ => none
  | .block _ body, n | .caseArm _ _ body, n => entryAll label body n
  | .ifElse _ cond thenArm elseArm, n =>
    (thenArm.entry label (n + cond.headCount)).or
      (elseArm.entry label (n + cond.headCount + thenArm.count))
  | .whileLoop p cond body, n =>
    (body.entry label (n + cond.headCount)).map
      (· ++ [.continueTarget, .round (.whileLoop p cond body) n] ++ [.breakTarget])
  | .doWhile p body cond, n =>
    (body.entry label n).map
      (· ++ .continueTarget :: cond.guard (n + body.count) [.round (.doWhile p body cond) n] []
        ++ [.breakTarget])
  | .forLoop p before init cond step body, n =>
    let start := n + before.count + init.sideCount
    let next := start + cond.headCount + body.count
    let s := Stmt.forLoop p before init cond step body
    ((before.entry label n).map (· ++ (init.side (n + before.count) ++ [.loop s start]))).or
      ((body.entry label (start + cond.headCount)).map
        (· ++ .continueTarget :: (step.side next ++ [.round s start]) ++ [.breakTarget]))
  | .foreach p var iterable body, n =>
    (body.entry label (n + iterable.headCount)).map
      (· ++ [.continueTarget, .round (.foreach p var iterable body) n] ++ [.breakTarget])
  | .switch _ subject arms, n =>
    (entryAll label arms (n + subject.headCount)).map (· ++ [.breakTarget])
  | .labeled _ l body, n =>
    if label = l then some [.visit n, .stmt body (n + 1)] else body.entry label (n + 1)

/-- The tasks from a label in several statements to their end. -/
def entryAll (label : String) : List Stmt → Nat → Option (List Task)
  | [], _ => none
  | s :: rest, n =>
    ((s.entry label n).map (· ++ [.stmts rest (n + s.count)])).or
      (entryAll label rest (n + s.count))

end

end Stmt

/-- The ways in which a task unfolds. -/
def Task.ways : Task → List (List Task)
  | .eval e n opened yes no => [e.tasks n opened yes no]
  | .operand e n yes no =>
    if e.isFork then [[.eval e n true yes no]] else [[.visit n, .eval e (n + 1) true yes no]]
  | .evalAll [] _ _ => [[]]
  | .evalAll (e :: rest) n opened =>
    [[.eval e n opened [] [], .evalAll rest (n + e.count opened) (!e.isFork)]]
  | .either yes no => [yes, no]
  | .stmt s n => [s.tasks n]
  | .stmts [] _ => [[]]
  | .stmts (s :: rest) n => [[.stmt s n, .stmts rest (n + s.count)]]
  | .select [] _ skips => if skips then [[]] else []
  | .select (arm :: rest) n skips =>
    [.stmts (arm :: rest) n]
      :: (if rest.isEmpty && !skips then [] else [[.select rest (n + arm.count) skips]])
  | .loop s n => [[.round s n, .breakTarget]]
  | .round s n => [s.round n]
  | .breakTarget | .continueTarget => [[]]
  | .visit _ | .brk | .cont | .goto _ | .leave => []

/-- The ways in which a task unfolds, one by one. -/
inductive Task.Unfolds : Task → List Task → Prop where
  | eval {e : Shape} {n : Nat} {opened : Bool} {yes no : List Task} :
    Unfolds (.eval e n opened yes no) (e.tasks n opened yes no)
  | fork {e : Shape} {n : Nat} {yes no : List Task} :
    e.isFork = true → Unfolds (.operand e n yes no) [.eval e n true yes no]
  | leaf {e : Shape} {n : Nat} {yes no : List Task} :
    ¬ e.isFork = true → Unfolds (.operand e n yes no) [.visit n, .eval e (n + 1) true yes no]
  | noExprs {n : Nat} {opened : Bool} : Unfolds (.evalAll [] n opened) []
  | exprs {e : Shape} {rest : List Shape} {n : Nat} {opened : Bool} :
    Unfolds (.evalAll (e :: rest) n opened)
      [.eval e n opened [] [], .evalAll rest (n + e.count opened) (!e.isFork)]
  | yes {yes no : List Task} : Unfolds (.either yes no) yes
  | no {yes no : List Task} : Unfolds (.either yes no) no
  | stmt {s : Stmt} {n : Nat} : Unfolds (.stmt s n) (s.tasks n)
  | noStmts {n : Nat} : Unfolds (.stmts [] n) []
  | stmts {s : Stmt} {rest : List Stmt} {n : Nat} :
    Unfolds (.stmts (s :: rest) n) [.stmt s n, .stmts rest (n + s.count)]
  | noCase {n : Nat} : Unfolds (.select [] n true) []
  /-- A case is selected. -/
  | take {arm : Stmt} {rest : List Stmt} {n : Nat} {skips : Bool} :
    Unfolds (.select (arm :: rest) n skips) [.stmts (arm :: rest) n]
  /-- A case is passed over. -/
  | skip {arm : Stmt} {rest : List Stmt} {n : Nat} {skips : Bool} :
    (rest = [] → skips = true) →
      Unfolds (.select (arm :: rest) n skips) [.select rest (n + arm.count) skips]
  | loop {s : Stmt} {n : Nat} : Unfolds (.loop s n) [.round s n, .breakTarget]
  | round {s : Stmt} {n : Nat} : Unfolds (.round s n) (s.round n)
  | breakTarget : Unfolds .breakTarget []
  | continueTarget : Unfolds .continueTarget []

/-- The last case is passed over only if none has to be selected. -/
theorem Task.mem_ways_select {arm : Stmt} {rest : List Stmt} {n : Nat} {skips : Bool}
    {way : List Task} : way ∈ (Task.select (arm :: rest) n skips).ways ↔
      way = [.stmts (arm :: rest) n] ∨
        way = [.select rest (n + arm.count) skips] ∧ (rest = [] → skips = true) := by
  rw [ways, List.mem_cons]
  refine or_congr_right ?_
  split <;> simp_all

/-- The ways in which a task unfolds are those that are listed. -/
theorem Task.mem_ways {task : Task} {way : List Task} : way ∈ task.ways ↔ task.Unfolds way := by
  constructor
  · intro h
    cases task with
    | eval | stmt | loop | round | breakTarget | continueTarget =>
      obtain rfl := List.mem_singleton.1 h
      constructor
    | evalAll es | stmts es =>
      cases es with
      | nil | cons =>
        obtain rfl := List.mem_singleton.1 h
        constructor
    | operand e =>
      rw [ways] at h
      split at h
      · next he =>
        obtain rfl := List.mem_singleton.1 h
        exact .fork he
      · next he =>
        obtain rfl := List.mem_singleton.1 h
        exact .leaf he
    | either yes no =>
      obtain rfl | rfl : way = yes ∨ way = no := by simpa [ways] using h
      · exact .yes
      · exact .no
    | select arms n skips =>
      cases arms with
      | nil =>
        cases skips with
        | false => cases h
        | true =>
          obtain rfl := List.mem_singleton.1 h
          exact .noCase
      | cons arm rest =>
        rcases mem_ways_select.1 h with rfl | ⟨rfl, hs⟩
        · exact .take
        · exact .skip hs
    | visit | brk | cont | goto | leave => cases h
  · intro h
    cases h with
    | skip hs => exact mem_ways_select.2 (.inr ⟨rfl, hs⟩)
    | fork he => simp [ways, he]
    | leaf he => simp [ways, he]
    | _ => simp [ways]

/-! ## Runs -/

/-- Whether a task is where a `break` goes on. -/
def Task.isBreakTarget : Task → Bool
  | .breakTarget => true
  | _ => false

/-- Whether a task is where a `continue` goes on. -/
def Task.isContinueTarget : Task → Bool
  | .continueTarget => true
  | _ => false

/-- What is left of a stack behind the first task of some kind. -/
def skipPast (target : Task → Bool) : List Task → Option (List Task)
  | [] => none
  | task :: rest => if target task then some rest else skipPast target rest

/-- What is left of a stack is behind a task of the kind. -/
theorem exists_of_skipPast {target : Task → Bool} {rest after : List Task}
    (h : skipPast target rest = some after) :
    ∃ before task, rest = before ++ task :: after ∧ target task = true := by
  induction rest with
  | nil => cases h
  | cons task rest ih =>
    rw [skipPast] at h
    split at h
    · next ht =>
      cases h
      exact ⟨[], task, rfl, ht⟩
    · obtain ⟨before, t, rfl, ht⟩ := ih h
      exact ⟨task :: before, t, rfl, ht⟩

/-- A step of the machine that runs a function body, with the vertex that it visits, if any. -/
inductive Step (body : Stmt) : List Task → Option Vertex → List Task → Prop where
  | visit {n : Nat} {rest : List Task} : Step body (.visit n :: rest) (some (.site n)) rest
  | leave {rest : List Task} : Step body (.leave :: rest) (some .exit) []
  | unfold {t : Task} {way rest : List Task} :
    way ∈ t.ways → Step body (t :: rest) none (way ++ rest)
  | brk {rest after : List Task} :
    skipPast Task.isBreakTarget rest = some after → Step body (.brk :: rest) none after
  | cont {rest after : List Task} :
    skipPast Task.isContinueTarget rest = some after → Step body (.cont :: rest) none after
  | goto {label : String} {rest way : List Task} :
    body.entry label 0 = some way → Step body (.goto label :: rest) none (way ++ [.leave])

/-- The machine goes from one stack to another and visits vertices on the way. -/
inductive Runs (body : Stmt) : List Task → List Vertex → List Task → Prop where
  | refl {tasks : List Task} : Runs body tasks [] tasks
  | step {before between after : List Task} {v : Option Vertex} {vs : List Vertex} :
    Step body before v between → Runs body between vs after →
      Runs body before (v.toList ++ vs) after

/-- The machine runs a function body from its start up to some point. -/
def Executes (body : Stmt) (vs : List Vertex) (tasks : List Task) : Prop :=
  Runs body [.stmt body 0, .leave] vs tasks

end LastUse
