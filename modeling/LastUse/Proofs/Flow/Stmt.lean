import LastUse.Flow.Body
import LastUse.Proofs.Flow.Expr

/-!
# How the flow through a statement is put together

`Stmt.FlowInvariant` says what properties of flows need to hold of every flow that `Stmt.flow`
drafts: one condition for each form of statement, which gives the property of the statement's flow
from the heads that its expressions have and from the property of the statements in it. Where a
statement may be missing, the missing one has the empty flow (`FlowInvariant.absent`).
-/

namespace LastUse

/-- The sites of one draft behind another are numbered on. -/
theorem Cursor.next_after_after {c : Cursor} {a b : Draft} :
    ((c.after a).after b).next = c.next + (a ++ b).sites.length := by
  simp [Cursor.after, Nat.add_assoc]

namespace Stmt

/-- The host of the sites of a statement that has no kind of its own. -/
def plainHost (sc : Scope) (p : Path) (label : String) : Host :=
  ⟨p, sc.ordinaryKind, label, sc.inLoop, false⟩

/-- The host of the sites of a loop's header. -/
def headerHost (p : Path) (label : String) : Host := ⟨p, .loopHeader, label, true, false⟩

/-- The draft of a label in front of a statement. -/
def labelDraft (sc : Scope) (p : Path) (label text : String) (n : Nat) (fr : Frontier) : Draft :=
  { Draft.ofSite { Host.fragment ⟨p, .label, text, sc.inLoop, false⟩ n with
    labelName := some label } fr with
    labels := [(label, n)] }

/-- The flow through a loop that is tested behind its body. -/
def closeDoWhile (p : Path) (n : Nat) (body : Passage) (head : Head) : Passage :=
  let back := Draft.ofEdges (leadTo (labelled head.exits.yes .loopControl) (.site n))
  ⟨((body.draft ++ head.draft ++ back).asLoop p).withoutBreaks.withoutContinues,
    labelled head.exits.no .negNext ++ body.draft.breaks⟩

/-- The flow through a `return` behind its head. -/
def closeReturn (p : Path) (exits : Bool) (head : Head) : Passage :=
  let leave := if exits then leadTo (labelled head.exits.out .returnExit) .exit else []
  ⟨head.draft ++ { edges := leave, region := [.ret p] }, []⟩

/-- The draft of a statement's head: its first site, then the flow through the expression if there
is one. -/
inductive Headed (h : Host) (e : Expr) (n : Nat) (fr : Frontier) : Draft → Prop
  | bare : e.isAbsent = true → Headed h e n fr (Draft.ofSite (h.fragment n) fr)
  | flow {f : Flow} : e.flow h (n + 1) (some n) (onward n) = .ok f →
    Headed h e n fr (Draft.ofSite (h.fragment n) fr ++ f.draft)

/-- The flow through an expression that a loop evaluates beside its condition: nothing if it is
missing, or a site of its own and the flow through it. -/
inductive Side (h : Host) (e : Expr) (n : Nat) (fr : Frontier) : Passage → Prop
  | absent : e.isAbsent = true → Side h e n fr ⟨{}, fr⟩
  | site {kind : SiteKind} {label : String} {f : Flow} : ¬ e.isAbsent = true →
    e.flow h (n + 1) (some n) (onward n) = .ok f →
    Side h e n fr ⟨Draft.ofSite (h.site n kind label) fr ++ f.draft, f.exits.out⟩

section

variable {h : Host} {e : Expr} {n : Nat} {fr : Frontier} {head : Head} {r : Passage}

/-- A head that evaluates an expression begins with its first site and goes on with the flow. -/
theorem headed_of_evaluating (H : evaluatingHead h e n fr = .ok head) :
    Headed h e n fr head.draft := by
  obtain ⟨f, hf, H⟩ := ok_of_bind H
  cases H
  exact .flow hf

/-- A head that may evaluate nothing begins with its first site and goes on with the flow, if there
is one. -/
theorem headed_of_optional (H : optionalHead h e n fr = .ok head) :
    Headed h e n fr head.draft := by
  unfold optionalHead at H
  split at H
  · next he =>
    cases H
    exact .bare he
  · exact headed_of_evaluating H

/-- The head of a loop begins with its first site and goes on with the flow through its
condition. -/
theorem headed_of_loop (H : loopHead h e n fr = .ok head) : Headed h e n fr head.draft := by
  unfold loopHead at H
  split at H
  · next he =>
    cases H
    exact .bare he
  · exact headed_of_evaluating H

/-- The head of a statement has a site. -/
theorem Headed.sites_ne_nil {d : Draft} (H : Headed h e n fr d) : d.sites ≠ [] := by
  cases H <;> simp [Draft.ofSite]

/-- The start of a loop is evaluated beside its condition. -/
theorem side_of_init (H : initFlow h e n fr = .ok r) : Side h e n fr r := by
  unfold initFlow at H
  split at H
  · next he =>
    cases H
    exact .absent he
  · next he =>
    obtain ⟨text, -, H⟩ := ok_of_bind H
    obtain ⟨f, hf, H⟩ := ok_of_bind H
    cases H
    exact .site he hf

/-- The step of a loop is evaluated beside its condition. -/
theorem side_of_step (H : stepFlow h e n fr = .ok r) : Side h e n fr r := by
  unfold stepFlow at H
  split at H
  · next he =>
    cases H
    exact .absent he
  · next he =>
    obtain ⟨text, -, H⟩ := ok_of_bind H
    obtain ⟨f, hf, H⟩ := ok_of_bind H
    cases H
    exact .site he hf

end

/-- What properties of flows need to hold of every flow through statements: `P` of the flow through
a statement, `Q` of the flow through several and `R` of the flow through the arms of a switch. -/
structure FlowInvariant (P : Scope → Stmt → Cursor → Frontier → Passage → Prop)
    (Q : Scope → List Stmt → Cursor → Frontier → Passage → Prop)
    (R : Scope → List Stmt → Cursor → Frontier → Frontier → Arms → Prop) : Prop where
  absent {sc : Scope} {c : Cursor} {fr : Frontier} : P sc .absent c fr ⟨{}, fr⟩
  block {sc : Scope} {p : Path} {body : List Stmt} {c : Cursor} {fr : Frontier} {r : Passage} :
    Q sc body c fr r → P sc (.block p body) c fr r
  exprStmt {sc : Scope} {p : Path} {e : Expr} {c : Cursor} {fr : Frontier} {label : String}
    {head : Head} :
    optionalHead (plainHost sc p label) e c.next fr = .ok head →
      P sc (.exprStmt p e) c fr ⟨head.draft, head.exits.out⟩
  decl {sc : Scope} {p : Path} {name : String} {init : Expr} {c : Cursor} {fr : Frontier}
    {label : String} {head : Head} :
    optionalHead (plainHost sc p label) init c.next fr = .ok head →
      P sc (.decl p name init) c fr ⟨head.draft, head.exits.out⟩
  ifElse {sc : Scope} {p : Path} {cond : Expr} {thenArm elseArm : Stmt}
    {c : Cursor} {fr : Frontier} {label : String} {head : Head} {yes no : Passage} :
    evaluatingHead (plainHost sc p label) cond c.next fr = .ok head →
      P sc thenArm (c.after head.draft) (labelled head.exits.yes .posNext) yes →
      P sc elseArm ((c.after head.draft).after yes.draft) (labelled head.exits.no .negNext) no →
      P sc (.ifElse p cond thenArm elseArm) c fr
        ⟨head.draft ++ (yes.draft ++ no.draft).asBranch p [yes.draft.region, no.draft.region],
          yes.out ++ no.out⟩
  whileLoop {sc : Scope} {p : Path} {cond : Expr} {s : Stmt} {c : Cursor} {fr : Frontier}
    {label : String} {head : Head} {body : Passage} :
    loopHead (headerHost p label) cond c.next fr = .ok head →
      P sc.inLoopBody s (c.after head.draft) (labelled head.exits.yes .posNext) body →
      P sc (.whileLoop p cond s) c fr (closeLoop p c.next head body ⟨{}, bodyEnd body⟩)
  forLoop {sc : Scope} {p : Path} {before s : Stmt} {init cond inc : Expr} {c d : Cursor}
    {fr : Frontier} {label : String} {first start body step : Passage} {head : Head} :
    P sc before c fr first →
      initFlow (plainHost sc p label) init (c.after first.draft).next first.out = .ok start →
      d = (c.after first.draft).after start.draft →
      loopHead (headerHost p label) cond d.next start.out = .ok head →
      P sc.inLoopBody s (d.after head.draft) (labelled head.exits.yes .posNext) body →
      stepFlow (headerHost p label) inc ((d.after head.draft).after body.draft).next (bodyEnd body)
        = .ok step →
      P sc (.forLoop p before init cond inc s) c fr
        ⟨first.draft ++ start.draft ++ (closeLoop p d.next head body step).draft,
          (closeLoop p d.next head body step).out⟩
  foreach {sc : Scope} {p : Path} {var : String} {iterable : Expr} {s : Stmt} {c : Cursor}
    {fr : Frontier} {label : String} {head : Head} {body : Passage} :
    evaluatingHead (headerHost p label) iterable c.next fr = .ok head →
      P sc.inLoopBody s (c.after head.draft) (labelled head.exits.out .posNext) body →
      P sc (.foreach p var iterable s) c fr
        (closeLoop p c.next ⟨head.draft, .straight head.exits.out⟩ body ⟨{}, bodyEnd body⟩)
  doWhile {sc : Scope} {p : Path} {s : Stmt} {cond : Expr} {c : Cursor} {fr : Frontier}
    {label : String} {body : Passage} {head : Head} :
    P sc.inLoopBody s c fr body →
      loopHead (headerHost p label) cond (c.after body.draft).next (bodyEnd body) = .ok head →
      P sc (.doWhile p s cond) c fr (closeDoWhile p c.next body head)
  switch {sc : Scope} {p : Path} {subject : Expr} {cases : List Stmt} {c : Cursor} {fr : Frontier}
    {label : String} {head : Head} {arms : Arms} :
    evaluatingHead (plainHost sc p label) subject c.next fr = .ok head →
      R sc.inSwitchArm cases (c.after head.draft) head.exits.out [] arms →
      P sc (.switch p subject cases) c fr (closeSwitch p head arms)
  labeled {sc : Scope} {p : Path} {label text : String} {s : Stmt} {c : Cursor} {fr : Frontier}
    {body : Passage} :
    label ∉ c.labels →
      P sc s (c.after (labelDraft sc p label text c.next fr)) (onward c.next) body →
      P sc (.labeled p label s) c fr
        ⟨labelDraft sc p label text c.next fr ++ body.draft, body.out⟩
  goto {sc : Scope} {p : Path} {label text : String} {c : Cursor} {fr : Frontier} :
    P sc (.goto p label) c fr
      ⟨{ Draft.ofSite (Host.fragment ⟨p, .goto, text, sc.inLoop, false⟩ c.next) fr with
          gotos := [(c.next, label)] }, []⟩
  ret {sc : Scope} {p : Path} {value : Expr} {c : Cursor} {fr : Frontier} {label : String}
    {head : Head} {exits : Bool} :
    optionalHead ⟨p, .ret, label, sc.inLoop, true⟩ value c.next fr = .ok head →
      sc.exitEdges = .ok exits → P sc (.ret p value) c fr (closeReturn p exits head)
  brk {sc : Scope} {p : Path} {label : String} {c : Cursor} {fr : Frontier} :
    sc.breakable = true →
      P sc (.brk p) c fr
        ⟨{ Draft.ofSite ((plainHost sc p label).fragment c.next) fr with
            breaks := labelled (onward c.next) .jumpNext }, []⟩
  cont {sc : Scope} {p : Path} {label : String} {c : Cursor} {fr : Frontier} :
    sc.inLoop = true →
      P sc (.cont p) c fr
        ⟨{ Draft.ofSite ((plainHost sc p label).fragment c.next) fr with
            continues := labelled (onward c.next) .jumpNext }, []⟩
  nil {sc : Scope} {c : Cursor} {fr : Frontier} : Q sc [] c fr ⟨{}, fr⟩
  cons {sc : Scope} {s : Stmt} {ss : List Stmt} {c : Cursor} {fr : Frontier}
    {first later : Passage} :
    P sc s c fr first → Q sc ss (c.after first.draft) first.out later →
      Q sc (s :: ss) c fr ⟨first.draft ++ later.draft, later.out⟩
  noArms {sc : Scope} {c : Cursor} {subject fallthrough : Frontier} :
    R sc [] c subject fallthrough ⟨{}, [], fallthrough, false⟩
  arm {sc : Scope} {p : Path} {isDefault : Bool} {body cases : List Stmt} {c : Cursor}
    {subject fallthrough : Frontier} {first : Passage} {later : Arms} :
    Q sc body c (labelled subject .switchCase ++ labelled fallthrough .nextLine) first →
      R sc cases (c.after first.draft) subject first.out later →
      R sc (.caseArm p isDefault body :: cases) c subject fallthrough (.cons first isDefault later)

namespace FlowInvariant

variable {P : Scope → Stmt → Cursor → Frontier → Passage → Prop}
  {Q : Scope → List Stmt → Cursor → Frontier → Passage → Prop}
  {R : Scope → List Stmt → Cursor → Frontier → Frontier → Arms → Prop}

/-- The host that a statement's sites have, and what is done with it. -/
theorem ok_of_host {α : Type} {sc : Scope} {s : Stmt} {p : Path} {kind : SiteKind}
    {inReturn : Bool} {k : Host → Except Fault α} {x : α}
    (H : host sc s p kind inReturn >>= k = .ok x) :
    ∃ label, k ⟨p, kind, label, sc.inLoop, inReturn⟩ = .ok x := by
  obtain ⟨h, hh, H⟩ := ok_of_bind H
  obtain ⟨label, -, hh⟩ := ok_of_bind hh
  cases hh
  exact ⟨label, H⟩

/-- The flow through a statement that may be missing, and what is done with it. -/
theorem optional {α : Type} (I : FlowInvariant P Q R) {sc : Scope} {s : Stmt} {c : Cursor}
    {fr : Frontier} {k : Passage → Except Fault α} {x : α}
    (H : (match s with
      | .absent => (do
        let r ← pure (Passage.mk {} fr)
        k r)
      | s => do
        let r ← Stmt.flow sc s c fr
        k r) = .ok x)
    (hP : ∀ {r}, Stmt.flow sc s c fr = .ok r → P sc s c fr r) :
    ∃ r, P sc s c fr r ∧ k r = .ok x := by
  split at H
  · exact ⟨_, I.absent, H⟩
  · obtain ⟨r, hr, H⟩ := ok_of_bind H
    exact ⟨r, hP hr, H⟩

mutual

/-- A property that is kept holds of every flow through a statement. -/
theorem flow (I : FlowInvariant P Q R) : ∀ {s : Stmt} {sc : Scope} {c : Cursor} {fr : Frontier}
    {r : Passage}, s.flow sc c fr = .ok r → P sc s c fr r
  | .absent, _, _, _, _, H | .stray _, _, _, _, _, H | .unlisted, _, _, _, _, H
  | .misnamed _, _, _, _, _, H | .caseArm _ _ _, _, _, _, _, H => by simp [Stmt.flow] at H
  | .block _ body, _, _, _, _, H => by
    rw [Stmt.flow] at H
    exact I.block (I.flowAll H)
  | .exprStmt p e, _, _, _, _, H => by
    rw [Stmt.flow] at H
    obtain ⟨label, H⟩ := ok_of_host H
    obtain ⟨head, hhead, H⟩ := ok_of_bind H
    cases H
    exact I.exprStmt hhead
  | .decl p name init, _, _, _, _, H => by
    rw [Stmt.flow] at H
    obtain ⟨label, H⟩ := ok_of_host H
    obtain ⟨head, hhead, H⟩ := ok_of_bind H
    cases H
    exact I.decl hhead
  | .ifElse p cond thenArm elseArm, _, _, _, _, H => by
    rw [Stmt.flow] at H
    obtain ⟨label, H⟩ := ok_of_host H
    obtain ⟨head, hhead, H⟩ := ok_of_bind H
    obtain ⟨yes, hyes, H⟩ := ok_of_bind H
    obtain ⟨no, hno, H⟩ := I.optional H fun hno => I.flow hno
    cases H
    exact I.ifElse hhead (I.flow hyes) hno
  | .whileLoop p cond s, _, _, _, _, H => by
    rw [Stmt.flow] at H
    obtain ⟨label, H⟩ := ok_of_host H
    obtain ⟨head, hhead, H⟩ := ok_of_bind H
    obtain ⟨body, hbody, H⟩ := ok_of_bind H
    cases H
    exact I.whileLoop hhead (I.flow hbody)
  | .forLoop p before init cond inc s, _, _, _, _, H => by
    unfold Stmt.flow at H
    obtain ⟨first, hfirst, H⟩ := I.optional H fun hfirst => I.flow hfirst
    obtain ⟨label, H⟩ := ok_of_host H
    obtain ⟨start, hstart, H⟩ := ok_of_bind H
    obtain ⟨head, hhead, H⟩ := ok_of_bind H
    obtain ⟨body, hbody, H⟩ := ok_of_bind H
    obtain ⟨step, hstep, H⟩ := ok_of_bind H
    cases H
    exact I.forLoop hfirst hstart rfl hhead (I.flow hbody) hstep
  | .foreach p var iterable s, _, _, _, _, H => by
    rw [Stmt.flow] at H
    obtain ⟨label, H⟩ := ok_of_host H
    obtain ⟨head, hhead, H⟩ := ok_of_bind H
    obtain ⟨body, hbody, H⟩ := ok_of_bind H
    cases H
    exact I.foreach hhead (I.flow hbody)
  | .doWhile p s cond, _, _, _, _, H => by
    rw [Stmt.flow] at H
    obtain ⟨body, hbody, H⟩ := ok_of_bind H
    obtain ⟨label, H⟩ := ok_of_host H
    obtain ⟨head, hhead, H⟩ := ok_of_bind H
    cases H
    exact I.doWhile (I.flow hbody) hhead
  | .switch p subject cases, _, _, _, _, H => by
    rw [Stmt.flow] at H
    obtain ⟨label, H⟩ := ok_of_host H
    obtain ⟨head, hhead, H⟩ := ok_of_bind H
    obtain ⟨arms, harms, H⟩ := ok_of_bind H
    cases H
    exact I.switch hhead (I.flowArms harms)
  | .labeled p label s, sc, c, fr, _, H => by
    rw [Stmt.flow] at H
    split at H
    · cases H
    · next hl =>
      obtain ⟨text, H⟩ := ok_of_host H
      have hl : label ∉ c.labels := by simpa using hl
      split at H
      · cases H
        have ha : P sc (.labeled p label .absent) c fr
            ⟨labelDraft sc p label text c.next fr ++ {}, onward c.next⟩ := I.labeled hl I.absent
        rw [Draft.append_empty] at ha
        exact ha
      · obtain ⟨body, hbody, H⟩ := ok_of_bind H
        cases H
        exact I.labeled hl (I.flow hbody)
  | .goto p label, _, _, _, _, H => by
    rw [Stmt.flow] at H
    obtain ⟨text, H⟩ := ok_of_host H
    cases H
    exact I.goto
  | .ret p value, _, _, _, _, H => by
    rw [Stmt.flow] at H
    obtain ⟨label, H⟩ := ok_of_host H
    obtain ⟨head, hhead, H⟩ := ok_of_bind H
    obtain ⟨exits, hexits, H⟩ := ok_of_bind H
    cases H
    exact I.ret hhead hexits
  | .brk p, sc, _, _, _, H => by
    rw [Stmt.flow] at H
    split at H
    · cases H
    · next hb =>
      obtain ⟨label, H⟩ := ok_of_host H
      cases H
      exact I.brk (by simpa using hb)
  | .cont p, sc, _, _, _, H => by
    rw [Stmt.flow] at H
    split at H
    · cases H
    · next hl =>
      obtain ⟨label, H⟩ := ok_of_host H
      cases H
      exact I.cont (by simpa using hl)

/-- A property that is kept holds of every flow through several statements. -/
theorem flowAll (I : FlowInvariant P Q R) : ∀ {ss : List Stmt} {sc : Scope} {c : Cursor}
    {fr : Frontier} {r : Passage}, Stmt.flowAll sc ss c fr = .ok r → Q sc ss c fr r
  | [], _, _, _, _, H => by
    rw [Stmt.flowAll] at H
    cases H
    exact I.nil
  | s :: ss, _, _, _, _, H => by
    rw [Stmt.flowAll] at H
    obtain ⟨first, hf, H⟩ := ok_of_bind H
    obtain ⟨later, hl, H⟩ := ok_of_bind H
    cases H
    exact I.cons (I.flow hf) (I.flowAll hl)

/-- A property that is kept holds of every flow through the arms of a switch. -/
theorem flowArms (I : FlowInvariant P Q R) : ∀ {arms : List Stmt} {sc : Scope} {c : Cursor}
    {subject fallthrough : Frontier} {r : Arms},
    Stmt.flowArms sc arms c subject fallthrough = .ok r → R sc arms c subject fallthrough r
  | [], _, _, _, _, _, H => by
    rw [Stmt.flowArms] at H
    cases H
    exact I.noArms
  | arm :: arms, _, _, _, _, _, H => by
    cases arm with
    | caseArm p isDefault body =>
      rw [Stmt.flowArms] at H
      obtain ⟨first, hf, H⟩ := ok_of_bind H
      obtain ⟨later, hl, H⟩ := ok_of_bind H
      cases H
      exact I.arm (I.flowAll hf) (I.flowArms hl)
    | _ => simp [Stmt.flowArms] at H

end

end FlowInvariant

end Stmt

end LastUse
