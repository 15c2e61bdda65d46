import LastUse.Proofs.Run.Machine

/-!
# Where control goes from each site

`Stmt.links` says where control may go next from the sites of a statement, given where it goes
behind the statement (`Targets`) and where the labels stand. The links of a statement are put
together from those of its parts, and they come from its own sites only (`Stmt.links_within`).
Links are put together as the tasks of the machine are, so each task of a stack has its own
(`Task.Follows`).
-/

namespace LastUse

/-- Edges between vertices. -/
abbrev Links := Vertex → Vertex → Prop

/-- Where control goes behind a statement. -/
structure Targets where
  /-- From its end. -/
  next : Vertex → Prop
  /-- From a `break` in it. -/
  brk : Vertex → Prop
  /-- From a `continue` in it. -/
  cont : Vertex → Prop

/-- The targets behind the body of a loop or the arms of a switch that is left by a `break`. -/
def Targets.breakable (t : Targets) : Targets := { t with brk := t.next }

/-- The targets behind the body of a loop that goes on at some vertices. -/
def Targets.round (t : Targets) (next : Vertex → Prop) : Targets :=
  { next, brk := t.brk, cont := next }

/-- What is visited first by something that has a number of sites: the first of them, or what is
next if there are none. -/
def first (count n : Nat) (next : Vertex → Prop) (v : Vertex) : Prop :=
  if count = 0 then next v else v = .site n

/-- The links from a site to some vertices. -/
def siteLinks (n : Nat) (next : Vertex → Prop) : Links := fun u v => u = .site n ∧ next v

/-! ## Expressions -/

namespace Shape

mutual

/-- The links of an expression, given where control goes if it is true and if it is false. -/
def links : Shape → Nat → Bool → (yes no : Vertex → Prop) → Links
  | .node parts, n, opened, yes, no => fun u v =>
    if staysOpen parts opened then linksAll parts n opened (fun v => yes v ∨ no v) u v
    else
      linksAll parts n opened (· = .site (n + countAll parts opened)) u v
        ∨ siteLinks (n + countAll parts opened) (fun v => yes v ∨ no v) u v
  | .fork c l r, n, _, yes, no => fun u v =>
    let m := n + l.operandCount
    let leftYes := match c with | .and => (· = .site m) | .or => yes
    let leftNo := match c with | .and => no | .or => (· = .site m)
    (if l.isFork then l.links n true leftYes leftNo u v
      else
        siteLinks n (first (l.count true) (n + 1) fun v => leftYes v ∨ leftNo v) u v
          ∨ l.links (n + 1) true leftYes leftNo u v)
      ∨ (if r.isFork then r.links m true yes no u v
        else
          siteLinks m (first (r.count true) (m + 1) fun v => yes v ∨ no v) u v
            ∨ r.links (m + 1) true yes no u v)

/-- The links of several expressions. -/
def linksAll : List Shape → Nat → Bool → (next : Vertex → Prop) → Links
  | [], _, _, _ => fun _ _ => False
  | e :: rest, n, opened, next => fun u v =>
    let m := n + e.count opened
    let behind := first (countAll rest (!e.isFork)) m next
    e.links n opened behind behind u v ∨ linksAll rest m (!e.isFork) next u v

end

/-- The links of an expression that is evaluated from a site of its own on. -/
def headLinks (e : Shape) (n : Nat) (yes no : Vertex → Prop) : Links := fun u v =>
  siteLinks n (first (e.count true) (n + 1) fun v => yes v ∨ no v) u v ∨
    e.links (n + 1) true yes no u v

/-- The links of an operand. -/
def operandLinks (e : Shape) (n : Nat) (yes no : Vertex → Prop) : Links :=
  if e.isFork then e.links n true yes no else e.headLinks n yes no

end Shape

namespace Expr

/-- The links of an expression that is evaluated for its value, from where control goes either
way. -/
def eitherLinks (e : Expr) (n : Nat) (yes no : Vertex → Prop) : Links :=
  e.shape.headLinks n (fun v => yes v ∨ no v) (fun v => yes v ∨ no v)

/-- The links of the condition of a loop. -/
def guardLinks (cond : Expr) (n : Nat) (yes no : Vertex → Prop) : Links :=
  if cond.isAbsent then siteLinks n yes else cond.shape.headLinks n yes no

/-- The links of an initialiser or a step. -/
def sideLinks (e : Expr) (n : Nat) (next : Vertex → Prop) : Links :=
  if e.isAbsent then fun _ _ => False else e.shape.headLinks n next next

end Expr

/-! ## Statements -/

/-- The links of a loop whose header comes before its body, from those of the header and the
body. -/
def preTestedLinks (header : (yes no : Vertex → Prop) → Links) (width : Nat) (step : Expr)
    (count n : Nat) (t : Targets) (body : Nat → Targets → Links) : Links := fun u v =>
  let m := n + width
  let inner := t.round (first step.sideCount (m + count) (· = .site n))
  header (first count m inner.next) t.next u v ∨ body m inner u v
    ∨ step.sideLinks (m + count) (· = .site n) u v

/-- The links of a loop that is tested behind its body. -/
def postTestedLinks (cond : Expr) (count n : Nat) (t : Targets) (body : Nat → Targets → Links) :
    Links := fun u v =>
  body n (t.round (· = .site (n + count))) u v
    ∨ cond.guardLinks (n + count) (· = .site n) t.next u v

namespace Stmt

/-- What is visited first when a case is selected. -/
def selected : List Stmt → Nat → (skips : Bool) → (next : Vertex → Prop) → Vertex → Prop
  | [], _, skips, next => fun v => skips = true ∧ next v
  | arm :: rest, n, skips, next => fun v =>
    first (countAll (arm :: rest)) n next v ∨ selected rest (n + arm.count) skips next v

mutual

/-- The links of a statement, given where the labels stand. -/
def links (gotos : String → Vertex → Prop) : Stmt → Nat → Targets → Links
  | .absent, _, _ | .stray _, _, _ | .unlisted, _, _ | .misnamed _, _, _ => fun _ _ => False
  | .block _ body, n, t | .caseArm _ _ body, n, t => linksAll gotos body n t
  | .exprStmt _ e, n, t | .decl _ _ e, n, t => e.shape.headLinks n t.next t.next
  | .ifElse _ cond thenArm elseArm, n, t => fun u v =>
    let m := n + cond.headCount
    cond.shape.headLinks n (first thenArm.count m t.next)
        (first elseArm.count (m + thenArm.count) t.next) u v
      ∨ thenArm.links gotos m t u v ∨ elseArm.links gotos (m + thenArm.count) t u v
  | .whileLoop _ cond body, n, t =>
    preTestedLinks (cond.guardLinks n) cond.headCount .absent body.count n t.breakable
      (body.links gotos)
  | .doWhile _ body cond, n, t =>
    postTestedLinks cond body.count n t.breakable (body.links gotos)
  | .forLoop _ before init cond step body, n, t => fun u v =>
    let m := n + before.count
    let start := m + init.sideCount
    before.links gotos n { t with next := first init.sideCount m (· = .site start) } u v
      ∨ init.sideLinks m (· = .site start) u v
      ∨ preTestedLinks (cond.guardLinks start) cond.headCount step body.count start t.breakable
        (body.links gotos) u v
  | .foreach _ _ iterable body, n, t =>
    preTestedLinks (iterable.eitherLinks n) iterable.headCount .absent body.count n t.breakable
      (body.links gotos)
  | .switch _ subject arms, n, t => fun u v =>
    let m := n + subject.headCount
    let behind := selected arms m (!arms.any isDefault) t.next
    subject.shape.headLinks n behind behind u v ∨ linksAll gotos arms m t.breakable u v
  | .labeled _ _ body, n, t => fun u v =>
    siteLinks n (first body.count (n + 1) t.next) u v ∨ body.links gotos (n + 1) t u v
  | .goto _ label, n, _ => siteLinks n (gotos label)
  | .ret _ value, n, _ => value.shape.headLinks n (· = .exit) (· = .exit)
  | .brk _, n, t => siteLinks n t.brk
  | .cont _, n, t => siteLinks n t.cont

/-- The links of several statements. -/
def linksAll (gotos : String → Vertex → Prop) : List Stmt → Nat → Targets → Links
  | [], _, _ => fun _ _ => False
  | s :: rest, n, t => fun u v =>
    s.links gotos n { t with next := first (countAll rest) (n + s.count) t.next } u v
      ∨ linksAll gotos rest (n + s.count) t u v

end

end Stmt

/-! ## The sites that links come from -/

/-- All links come from the sites in a range. -/
def Links.Within (l : Links) (n m : Nat) : Prop :=
  ∀ ⦃u v⦄, l u v → ∃ k, u = .site k ∧ n ≤ k ∧ k < m

namespace Links.Within

variable {a b : Links} {n k m : Nat}

/-- Links from a range are links from a wider one. -/
theorem mono (h : a.Within n m) {n' m' : Nat} (hn : n' ≤ n) (hm : m ≤ m') : a.Within n' m' := by
  intro u v hl
  obtain ⟨k, rfl, hk, hk'⟩ := h hl
  exact ⟨k, rfl, by omega, by omega⟩

/-- The links of two parts that follow each other. -/
theorem or {m' : Nat} (ha : a.Within n k) (hb : b.Within k m') (hn : n ≤ k) (hk : k ≤ m)
    (hm : m' ≤ m) : Links.Within (fun u v => a u v ∨ b u v) n m := by
  rintro u v (hl | hl)
  · exact ha.mono (Nat.le_refl n) hk hl
  · exact hb.mono hn hm hl

/-- No links come from any range. -/
theorem none : Links.Within (fun _ _ => False) n m := fun _ _ h => h.elim

/-- The links of a site come from the site. -/
theorem siteLinks {next : Vertex → Prop} : (siteLinks n next).Within n (n + 1) := by
  rintro u v ⟨rfl, -⟩
  exact ⟨n, rfl, Nat.le_refl n, Nat.lt_succ_self n⟩

end Links.Within

namespace Shape

variable {n : Nat} {opened : Bool} {yes no : Vertex → Prop}

/-- An operand that is a connective has no site of its own. -/
theorem operandCount_of_isFork {e : Shape} (h : e.isFork = true) :
    e.operandCount = e.count true := by
  simp [operandCount, h]

/-- Any other operand has one. -/
theorem operandCount_of_not_isFork {e : Shape} (h : e.isFork = false) :
    e.operandCount = 1 + e.count true := by
  simp [operandCount, h]

/-- The sites of a connective are those of its operands. -/
theorem count_fork (c : Connective) (l r : Shape) :
    (fork c l r).count opened = l.operandCount + r.operandCount := by
  rw [count, operandCount, operandCount]

/-- The links of a connective are those of its operands. -/
theorem links_fork (c : Connective) (l r : Shape) :
    (fork c l r).links n opened yes no = fun u v =>
      l.operandLinks n (match c with | .and => (· = .site (n + l.operandCount)) | .or => yes)
          (match c with | .and => no | .or => (· = .site (n + l.operandCount))) u v
        ∨ r.operandLinks (n + l.operandCount) yes no u v := by
  funext u v
  unfold links operandLinks
  cases l.isFork <;> cases r.isFork <;> rfl

/-- The links of an expression with a site of its own come from its sites if those of the
expression do. -/
theorem headLinks_within {e : Shape} (h : (e.links (n + 1) true yes no).Within (n + 1)
    (n + 1 + e.count true)) : (e.headLinks n yes no).Within n (n + (1 + e.count true)) :=
  Links.Within.siteLinks.or h (by omega) (by omega) (by omega)

/-- The links of an operand do so, too. -/
theorem operandLinks_within {e : Shape}
    (h : ∀ n, (e.links n true yes no).Within n (n + e.count true)) :
    (e.operandLinks n yes no).Within n (n + e.operandCount) := by
  unfold operandLinks operandCount
  split
  · exact (h n).mono (Nat.le_refl n) (by omega)
  · exact headLinks_within (h (n + 1))

mutual

/-- The links of an expression come from its sites. -/
theorem links_within : ∀ {e : Shape} {n : Nat} {opened : Bool} {yes no : Vertex → Prop},
    (e.links n opened yes no).Within n (n + e.count opened)
  | .node parts, n, opened, yes, no => by
    unfold links count
    split
    · exact linksAll_within
    · exact linksAll_within.or Links.Within.siteLinks (by omega) (by omega) (by omega)
  | .fork c l r, n, opened, yes, no => by
    rw [links_fork, count_fork]
    have hl (yes no) : (l.operandLinks n yes no).Within n (n + l.operandCount) :=
      operandLinks_within fun _ => links_within
    have hr : (r.operandLinks (n + l.operandCount) yes no).Within _ _ :=
      operandLinks_within fun _ => links_within
    exact (hl _ _).or hr (by omega) (by omega) (by omega)

/-- The links of several expressions come from their sites. -/
theorem linksAll_within : ∀ {es : List Shape} {n : Nat} {opened : Bool} {next : Vertex → Prop},
    (linksAll es n opened next).Within n (n + countAll es opened)
  | [], _, _, _ => by
    unfold linksAll
    exact Links.Within.none
  | e :: rest, n, opened, next => by
    unfold linksAll countAll
    exact links_within.or linksAll_within (by omega) (by omega) (by omega)

end

end Shape

namespace Expr

variable {e : Expr} {n : Nat} {yes no next : Vertex → Prop}

/-- The links of an expression with a site of its own come from its sites. -/
theorem headLinks_within : (e.shape.headLinks n yes no).Within n (n + e.headCount) :=
  Shape.headLinks_within Shape.links_within

/-- The links of the condition of a loop come from its sites. -/
theorem guardLinks_within : (e.guardLinks n yes no).Within n (n + e.headCount) := by
  unfold guardLinks
  split
  · exact Links.Within.siteLinks.mono (Nat.le_refl n) (by rw [headCount]; omega)
  · exact headLinks_within

/-- The links of an initialiser or a step come from its sites. -/
theorem sideLinks_within : (e.sideLinks n next).Within n (n + e.sideCount) := by
  unfold sideLinks sideCount
  split
  · exact Links.Within.none
  · exact headLinks_within

end Expr

namespace Stmt

section
variable {cond step : Expr} {count n : Nat} {t : Targets} {body : Nat → Targets → Links}
  (h : ∀ m t, (body m t).Within m (m + count))
include h

/-- The links of a loop come from its sites if those of its header do. -/
theorem preTestedLinks_within {header : (yes no : Vertex → Prop) → Links} {width : Nat}
    (hh : ∀ yes no, (header yes no).Within n (n + width)) :
    (preTestedLinks header width step count n t body).Within
      n (n + (width + count + step.sideCount)) := by
  refine (hh _ _).or ((h _ _).or Expr.sideLinks_within ?_ ?_ (Nat.le_refl _)) ?_ ?_ ?_
  all_goals omega

/-- The links of a loop that is tested behind its body come from its sites. -/
theorem postTestedLinks_within :
    (postTestedLinks cond count n t body).Within n (n + (count + cond.headCount)) :=
  (h n _).or Expr.guardLinks_within (by omega) (by omega) (by omega)

end

variable {gotos : String → Vertex → Prop}

mutual

/-- The links of a statement come from its sites. -/
theorem links_within : ∀ {s : Stmt} {n : Nat} {t : Targets},
    (s.links gotos n t).Within n (n + s.count)
  | .absent, _, _ | .stray _, _, _ | .unlisted, _, _ | .misnamed _, _, _ => by
    rw [links]
    exact Links.Within.none
  | .block _ body, _, _ | .caseArm _ _ body, _, _ => by
    rw [links, count]
    exact linksAll_within
  | .exprStmt _ e, _, _ | .decl _ _ e, _, _ | .ret _ e, _, _ => by
    rw [links, count]
    exact Expr.headLinks_within
  | .ifElse _ cond thenArm elseArm, n, t => by
    rw [links, count]
    refine Expr.headLinks_within.or (links_within.or links_within ?_ ?_ (Nat.le_refl _)) ?_ ?_ ?_
    all_goals omega
  | .whileLoop _ cond body, _, _ => by
    rw [links, count]
    exact preTestedLinks_within (fun _ _ => links_within) fun _ _ => Expr.guardLinks_within
  | .doWhile _ body cond, _, _ => by
    rw [links, count]
    exact postTestedLinks_within fun _ _ => links_within
  | .forLoop _ before init cond step body, n, t => by
    rw [links, count]
    have hb : ∀ m t, (body.links gotos m t).Within m (m + body.count) := fun _ _ => links_within
    refine links_within.or
      (Expr.sideLinks_within.or
        (preTestedLinks_within hb fun _ _ => Expr.guardLinks_within) ?_ ?_ (Nat.le_refl _))
          ?_ ?_ ?_
    all_goals omega
  | .foreach _ _ iterable body, _, _ => by
    rw [links, count]
    exact preTestedLinks_within (fun _ _ => links_within) fun _ _ => Expr.headLinks_within
  | .switch _ subject arms, n, _ => by
    rw [links, count]
    exact Expr.headLinks_within.or linksAll_within (by omega) (by omega) (by omega)
  | .labeled _ _ body, n, _ => by
    rw [links, count]
    exact Links.Within.siteLinks.or links_within (by omega) (by omega) (by omega)
  | .goto .., _, _ | .brk _, _, _ | .cont _, _, _ => by
    rw [links, count]
    exact Links.Within.siteLinks

/-- The links of several statements come from their sites. -/
theorem linksAll_within : ∀ {ss : List Stmt} {n : Nat} {t : Targets},
    (linksAll gotos ss n t).Within n (n + countAll ss)
  | [], _, _ => by
    rw [linksAll]
    exact Links.Within.none
  | s :: rest, n, _ => by
    rw [linksAll, countAll]
    exact links_within.or linksAll_within (by omega) (by omega) (by omega)

end

end Stmt

end LastUse
