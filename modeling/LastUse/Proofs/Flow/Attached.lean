import Mathlib.Data.List.Basic
import LastUse.Proofs.Access

/-!
# Where expressions are attached

The pieces that an expression is cut into at its connectives are attached to sites in the order of
evaluation. No piece holds a connective, and what is passed over between the pieces cannot touch a
name (`Draft.Attaches`). So the expressions at the sites of a function, one site after the other,
touch names at the same nodes as the expressions of its body, in the same order
(`FlowGraph.exprs_sites`).
-/

namespace LastUse

open LastUse.Expr (nodesAll mayTouch)

/-! ## Drafts -/

/-- A draft evaluates expressions in order: it attaches their pieces to sites from `low` on, none
of which holds a connective, and passes over no node that can touch a name. -/
structure Draft.Attaches (es : List Expr) (low n : Nat) (d : Draft) : Prop where
  within : ∀ a ∈ d.attached, low ≤ a.1 ∧ a.1 < n + d.sites.length
  sorted : d.attached.Pairwise (·.1 ≤ ·.1)
  plain : ∀ a ∈ d.attached, a.2.connected = false
  touching : (nodesAll (d.attached.map (·.2))).filter mayTouch = (nodesAll es).filter mayTouch

namespace Draft.Attaches

variable {es es' : List Expr} {low low' n n' : Nat} {a b d : Draft}

/-- A draft without expressions evaluates none. -/
theorem empty (h : d.attached = []) : d.Attaches [] low n := by
  refine ⟨?_, ?_, ?_, ?_⟩ <;> simp [h, nodesAll]

/-- A draft that attaches an expression without connectives evaluates it. -/
theorem ofExpr {o : Nat} {e : Expr} (hl : low ≤ o) (hn : o < n) (hc : e.connected = false) :
    (Draft.ofExpr o e).Attaches [e] low n := by
  refine ⟨?_, ?_, ?_, ?_⟩ <;> simp [Draft.ofExpr, hl, hn, hc]

/-- What is attached and how many sites there are is all that counts. -/
theorem congr (h : d.Attaches es low n) (ha : b.attached = d.attached) (hs : b.sites = d.sites) :
    b.Attaches es low n := by
  obtain ⟨hw, hsort, hp, ht⟩ := h
  refine ⟨?_, ?_, ?_, ?_⟩ <;> simp only [ha, hs] <;> assumption

/-- The bounds of the sites may be wider. -/
theorem weaken (h : d.Attaches es low n) (hl : low' ≤ low) (hn : n ≤ n') :
    d.Attaches es low' n' := by
  refine { h with within := fun a ha => ?_ }
  have := h.within a ha
  omega

/-- One draft after another, of which no piece is attached before the first. -/
theorem append (ha : a.Attaches es low n) (hb : b.Attaches es' low' (n + a.sites.length))
    (hl : low ≤ low') (hab : ∀ x ∈ a.attached, x.1 ≤ low') :
    (a ++ b).Attaches (es ++ es') low n where
  within x hx := by
    rw [attached_append, List.mem_append] at hx
    rw [sites_append, List.length_append]
    rcases hx with hx | hx
    · have := ha.within x hx
      omega
    · have := hb.within x hx
      omega
  sorted := by
    rw [attached_append, List.pairwise_append]
    exact ⟨ha.sorted, hb.sorted, fun x hx y hy => Nat.le_trans (hab x hx) (hb.within y hy).1⟩
  plain x hx := by
    rw [attached_append, List.mem_append] at hx
    exact hx.elim (ha.plain x) (hb.plain x)
  touching := by
    simp only [attached_append, List.map_append, Expr.nodesAll_append, List.filter_append,
      ha.touching, hb.touching]

/-- What is evaluated behind a new site. -/
theorem behindSite {s : Site} {fr : Frontier} (hb : b.Attaches es n (n + 1)) :
    (Draft.ofSite s fr ++ b).Attaches es n n :=
  (empty rfl).append hb (Nat.le_refl n) nofun

/-- The draft of one piece of a function after that of another. -/
theorem andThen (ha : a.Attaches es n n)
    (hb : b.Attaches es' (n + a.sites.length) (n + a.sites.length)) :
    (a ++ b).Attaches (es ++ es') n n :=
  ha.append hb (Nat.le_add_right _ _) fun x hx => Nat.le_of_lt (ha.within x hx).2

/-- A node that cannot touch a name itself is evaluated with its parts. -/
theorem of_parts {e : Expr} (h : d.Attaches e.parts low n) (ht : e.mayTouch = false) :
    d.Attaches [e] low n := by
  refine { h with touching := ?_ }
  rw [h.touching, nodesAll, nodesAll, List.append_nil]
  cases hn : e.isNode with
  | true => rw [Expr.nodes_of_isNode hn, List.filter_cons_of_neg (by simp [ht])]
  | false => cases e <;> simp_all [Expr.isNode, Expr.place?, Expr.parts, Expr.nodes, nodesAll]

end Draft.Attaches

/-! ## Expressions -/

/-- The flow through expressions attaches their pieces to the open fragment and the sites behind
it, none behind the fragment that is open in the end. -/
structure Flow.Attaches (es : List Expr) (n : Nat) (o : Option Nat) (f : Flow) : Prop where
  draft : f.draft.Attaches es (o.getD n) n
  fragment : ∀ k ∈ f.fragment, o.getD n ≤ k ∧ k < n + f.draft.sites.length
  behind : ∀ a ∈ f.draft.attached, a.1 ≤ f.fragment.getD (n + f.draft.sites.length)

namespace Flow.Attaches

variable {h : Host} {e l r : Expr} {es es' : List Expr} {n : Nat} {o : Option Nat} {fr : Frontier}
  {f first later left right : Flow}

/-- The open fragment comes before the next site. -/
theorem getD_le (ho : ∀ k ∈ o, k < n) : o.getD n ≤ n := by
  cases o with
  | none => exact Nat.le_refl n
  | some k => exact Nat.le_of_lt (ho k rfl)

/-- The flow through a fragment, at which something without sites is evaluated. -/
theorem atFragment {evaluated : Nat → Draft} (hev : ∀ k, (evaluated k).Attaches es k (k + 1))
    (hs : ∀ k, (evaluated k).sites = []) (ho : ∀ k ∈ o, k < n) :
    (Flow.atFragment h n o fr evaluated).Attaches es n o := by
  have hat : ∀ k, ∀ a ∈ (evaluated k).attached, a.1 ≤ k := by
    intro k a ha
    have := ((hev k).within a ha).2
    rw [hs, List.length_nil] at this
    omega
  cases o with
  | some k =>
    refine ⟨(hev k).weaken (Nat.le_refl k) (ho k rfl), ?_, hat k⟩
    intro _ hk
    cases hk
    exact ⟨Nat.le_refl k, Nat.lt_of_lt_of_le (ho k rfl) (Nat.le_add_right _ _)⟩
  | none =>
    refine ⟨(hev n).behindSite, ?_, ?_⟩
    · intro _ hk
      cases hk
      simp [Flow.atFragment, Draft.ofSite]
    · simpa [Flow.atFragment, Draft.ofSite] using hat n

/-- The flow through no expression evaluates none. -/
theorem nil (ho : ∀ k ∈ o, k < n) : (⟨{}, o, .straight fr⟩ : Flow).Attaches [] n o := by
  refine ⟨.empty rfl, ?_, nofun⟩
  rintro k hk
  cases hk
  exact ⟨Nat.le_refl k, ho k rfl⟩

/-- One flow after another, which begins at the fragment that the first one leaves open. -/
theorem andThen (hf : first.Attaches es n o) (ho : ∀ k ∈ o, k < n)
    (hl : later.Attaches es' (n + first.draft.sites.length) first.fragment) :
    ({ later with draft := first.draft ++ later.draft } : Flow).Attaches (es ++ es') n o := by
  have hle := getD_le ho
  have hlow : o.getD n ≤ first.fragment.getD (n + first.draft.sites.length) := by
    cases hfr : first.fragment with
    | none => exact Nat.le_trans hle (Nat.le_add_right _ _)
    | some k => exact (hf.fragment k hfr).1
  refine ⟨hf.draft.append hl.draft hlow hf.behind, ?_, ?_⟩
  · intro k hk
    have := hl.fragment k hk
    simp only [Draft.sites_append, List.length_append]
    omega
  · intro a ha
    simp only [Draft.attached_append, List.mem_append, Draft.sites_append,
      List.length_append] at ha ⊢
    rw [← Nat.add_assoc]
    rcases ha with ha | ha
    · have hfirst := hf.behind a ha
      cases hfr : later.fragment with
      | none =>
        have := (hf.draft.within a ha).2
        simp only [Option.getD_none]
        omega
      | some k =>
        have := (hl.fragment k hfr).1
        simp only [Option.getD_some]
        omega
    · exact hl.behind a ha

/-- The flow through a node behind its parts, which a fragment owns. -/
theorem finish {p : Path} (ho : ∀ k ∈ o, k < n) (ht : e.mayTouch = false)
    (hf : f.Attaches e.parts n o) : (Flow.finish h p n f).Attaches [e] n o := by
  have hown : (Flow.atFragment h (n + f.draft.sites.length) f.fragment f.exits.out
      fun o => Draft.ofOwned p o).Attaches [] (n + f.draft.sites.length) f.fragment :=
    atFragment (fun _ => .empty rfl) (fun _ => rfl) fun k hk => (hf.fragment k hk).2
  have hwhole := hf.andThen ho hown
  rw [List.append_nil] at hwhole
  exact { hwhole with draft := hwhole.draft.of_parts ht }

/-- The flow through a connective, from those through its operands. -/
theorem logic {p : Path} {c : Connective} {exits : Exits} (ho : ∀ k ∈ o, k < n)
    (hl : left.Attaches [l] n none) (hr : right.Attaches [r] (n + left.draft.sites.length) none) :
    (⟨left.draft ++ right.draft, none, exits⟩ : Flow).Attaches [.logic p c l r] n o := by
  have hd : (left.draft ++ right.draft).Attaches [l, r] n n := hl.draft.andThen hr.draft
  refine ⟨.of_parts (hd.weaken (getD_le ho) (Nat.le_refl n)) rfl, nofun, ?_⟩
  intro a ha
  exact Nat.le_of_lt (hd.within a ha).2

/-- The flow through a site, then through what is evaluated behind it. -/
theorem behindSite {s : Site} (hf : f.Attaches es (n + 1) (some n)) :
    ({ f with draft := Draft.ofSite s fr ++ f.draft } : Flow).Attaches es n none := by
  have hlen : n + (Draft.ofSite s fr ++ f.draft).sites.length = n + 1 + f.draft.sites.length := by
    simp [Draft.ofSite, Nat.add_comm, Nat.add_left_comm]
  refine ⟨hf.draft.behindSite, ?_, ?_⟩ <;> rw [hlen]
  · exact hf.fragment
  · exact hf.behind

end Flow.Attaches

/-- The flow through an expression attaches it in order. -/
theorem Expr.attaches (h : Host) : Expr.FlowInvariant h
    (fun e n o _ f => (∀ k ∈ o, k < n) → f.Attaches [e] n o)
    (fun es n o _ f => (∀ k ∈ o, k < n) → f.Attaches es n o)
    (fun _ e n _ f => f.Attaches [e] n none) where
  plain hc := .atFragment (fun k => .ofExpr (Nat.le_refl k) (Nat.lt_succ_self k) hc) fun _ => rfl
  finish _ _ ht _ hq ho := .finish ho ht (hq ho)
  logic hl hr ho := .logic ho hl hr
  nil := .nil
  cons hf hl ho := .andThen (hf ho) ho (hl fun k hk => ((hf ho).fragment k hk).2)
  nested _ hf := hf nofun
  leaf _ hf := .behindSite (hf (by simp))

/-! ## Statements -/

namespace Stmt

variable {h : Host} {e : Expr} {n : Nat} {fr : Frontier} {head : Head} {r : Passage}

mutual

/-- The expressions of a statement in the order of evaluation. -/
def exprs : Stmt → List Expr
  | .exprStmt _ e | .decl _ _ e | .ret _ e => [e]
  | .block _ body | .caseArm _ _ body => exprsAll body
  | .ifElse _ cond thenArm elseArm => cond :: (thenArm.exprs ++ elseArm.exprs)
  | .whileLoop _ cond body => cond :: body.exprs
  | .doWhile _ body cond => body.exprs ++ [cond]
  | .forLoop _ before init cond step body => before.exprs ++ init :: cond :: (body.exprs ++ [step])
  | .foreach _ _ iterable body => iterable :: body.exprs
  | .switch _ subject arms => subject :: exprsAll arms
  | .labeled _ _ body => body.exprs
  | .absent | .stray _ | .unlisted | .misnamed _ | .goto .. | .brk _ | .cont _ => []

/-- The expressions of several statements in the order of evaluation. -/
def exprsAll : List Stmt → List Expr
  | [] => []
  | s :: rest => s.exprs ++ exprsAll rest

end

/-- A missing expression has no nodes. -/
theorem attaches_absent {d : Draft} (he : e.isAbsent = true) (hd : d.attached = []) :
    d.Attaches [e] n n := by
  cases e with
  | absent => exact .of_parts (.empty hd) rfl
  | _ => cases he

/-- A site and the flow behind it evaluate the expression that flows. -/
theorem attaches_flow {s : Site} {f : Flow} (hf : e.flow h (n + 1) (some n) (onward n) = .ok f) :
    (Draft.ofSite s fr ++ f.draft).Attaches [e] n n :=
  (Flow.Attaches.behindSite ((Expr.attaches h).flow hf (by simp))).draft

/-- The head of a statement evaluates its expression. -/
theorem attaches_head {d : Draft} (H : Headed h e n fr d) : d.Attaches [e] n n := by
  cases H with
  | bare he => exact attaches_absent he rfl
  | flow hf => exact attaches_flow hf

/-- The start or the step of a loop evaluates its expression. -/
theorem attaches_side (H : Side h e n fr r) : r.draft.Attaches [e] n n := by
  cases H with
  | absent he => exact attaches_absent he rfl
  | site _ hf => exact attaches_flow hf

/-- A loop that is tested before its body evaluates its header, its body and its step. -/
theorem attaches_closeLoop {p : Path} {m : Nat} {body step : Passage} {es es' es'' : List Expr}
    (hh : head.draft.Attaches es n n)
    (hb : body.draft.Attaches es' (n + head.draft.sites.length) (n + head.draft.sites.length))
    (hs : step.draft.Attaches es'' (n + head.draft.sites.length + body.draft.sites.length)
      (n + head.draft.sites.length + body.draft.sites.length)) :
    (closeLoop p m head body step).draft.Attaches (es ++ es' ++ es'') n n := by
  have hlen : n + head.draft.sites.length + body.draft.sites.length =
    n + (head.draft ++ body.draft).sites.length := by simp [Nat.add_assoc]
  rw [hlen] at hs
  refine ((hh.andThen hb).andThen hs).congr ?_ ?_ <;>
    simp [closeLoop, Draft.asLoop, Draft.withoutBreaks, Draft.withoutContinues, Draft.ofEdges]

/-- The flow through a statement attaches its expressions in the order of evaluation. -/
theorem attaches : FlowInvariant (fun _ s c _ r => r.draft.Attaches s.exprs c.next c.next)
    (fun _ ss c _ r => r.draft.Attaches (exprsAll ss) c.next c.next)
    (fun _ arms c _ _ r => r.draft.Attaches (exprsAll arms) c.next c.next) where
  absent := .empty rfl
  block h := h
  exprStmt hh := attaches_head (headed_of_optional hh)
  decl hh := attaches_head (headed_of_optional hh)
  ifElse {_ _ _ _ _ _ _ _ head yes no} hh hy hn := by
    have hyn : (yes.draft ++ no.draft).Attaches _ _ _ := hy.andThen hn
    exact (attaches_head (headed_of_evaluating hh)).andThen (hyn.congr rfl rfl)
  whileLoop {_ _ cond s _ _ _ _ _} hh hb := by
    rw [exprs, ← List.append_nil (cond :: s.exprs)]
    exact attaches_closeLoop (attaches_head (headed_of_loop hh)) hb (.empty rfl)
  forLoop {_ p before s init cond inc c d _ _ first start body step head} hf hi hd hh hb hs := by
    have hfirst := hf.andThen (attaches_side (side_of_init hi))
    have hn : d.next = c.next + (first.draft ++ start.draft).sites.length :=
      hd ▸ Cursor.next_after_after
    have hloop : (closeLoop p d.next head body step).draft.Attaches ([cond] ++ s.exprs ++ [inc])
        (c.next + (first.draft ++ start.draft).sites.length)
        (c.next + (first.draft ++ start.draft).sites.length) := by
      rw [← hn]
      exact attaches_closeLoop (attaches_head (headed_of_loop hh))
        hb (attaches_side (side_of_step hs))
    rw [exprs]
    simpa using hfirst.andThen hloop
  foreach {_ _ _ iterable s _ _ _ _ _} hh hb := by
    rw [exprs, ← List.append_nil (iterable :: s.exprs)]
    exact attaches_closeLoop (attaches_head (headed_of_evaluating hh)) hb (.empty rfl)
  doWhile hb hh := by
    refine (hb.andThen (attaches_head (headed_of_loop hh))).congr ?_ ?_ <;>
      simp [closeDoWhile, Draft.asLoop, Draft.withoutBreaks, Draft.withoutContinues, Draft.ofEdges]
  switch hh ha := (attaches_head (headed_of_evaluating hh)).andThen (ha.congr rfl rfl)
  labeled {sc p label text _ c fr _} _ hb := by
    have hl : (labelDraft sc p label text c.next fr).Attaches [] c.next c.next := .empty rfl
    exact hl.andThen hb
  goto := .empty rfl
  ret hh _ := by
    refine (attaches_head (headed_of_optional hh)).congr ?_ ?_ <;> simp [closeReturn]
  brk _ := .empty rfl
  cont _ := .empty rfl
  nil := .empty rfl
  cons hf hl := hf.andThen hl
  noArms := .empty rfl
  arm hf hl := hf.andThen hl

end Stmt

/-! ## Flow graphs -/

/-- What is attached to sites in order is attached to those before the last one, then to the last
one. -/
theorem exists_attached_last {α : Type} {l : List (Nat × α)} {n : Nat}
    (hs : l.Pairwise (·.1 ≤ ·.1)) (hl : ∀ a ∈ l, a.1 < n + 1) :
    ∃ before last, l = before ++ last ∧ (∀ a ∈ before, a.1 < n) ∧ ∀ a ∈ last, a.1 = n := by
  induction l with
  | nil => exact ⟨[], [], rfl, nofun, nofun⟩
  | cons a rest ih =>
    rw [List.pairwise_cons] at hs
    by_cases ha : a.1 < n
    · obtain ⟨before, last, rfl, hb, he⟩ := ih hs.2 fun x hx => hl x (List.mem_cons_of_mem _ hx)
      refine ⟨a :: before, last, rfl, ?_, he⟩
      intro x hx
      rcases List.mem_cons.1 hx with rfl | hx
      · exact ha
      · exact hb x hx
    · refine ⟨[], a :: rest, rfl, nofun, ?_⟩
      intro x hx
      have hxn := hl x hx
      rcases List.mem_cons.1 hx with rfl | hx
      · omega
      · have := hs.1 x hx
        omega

/-- What is attached to sites in order is found again by going through the sites. -/
theorem flatMap_attached {α : Type} {l : List (Nat × α)} {n : Nat} (hs : l.Pairwise (·.1 ≤ ·.1))
    (hl : ∀ a ∈ l, a.1 < n) :
    (List.range n).flatMap (fun i => l.filterMap fun a => if a.1 = i then some a.2 else none) =
      l.map (·.2) := by
  induction n generalizing l with
  | zero =>
    have hnil : l = [] :=
      List.eq_nil_iff_forall_not_mem.2 fun a ha => absurd (hl a ha) (Nat.not_lt_zero _)
    simp [hnil]
  | succ n ih =>
    obtain ⟨before, last, rfl, hb, he⟩ := exists_attached_last hs hl
    rw [List.range_succ, List.flatMap_append, List.flatMap_singleton, List.map_append,
      ← ih (List.pairwise_append.1 hs).1 hb]
    congr 1
    · refine List.flatMap_congr fun i hi => ?_
      have hlast : (last.filterMap fun a => if a.1 = i then some a.2 else none) = [] := by
        rw [List.filterMap_eq_nil_iff]
        intro a ha
        rw [he a ha, if_neg (Nat.ne_of_gt (List.mem_range.1 hi))]
      rw [List.filterMap_append, hlast, List.append_nil]
    · have hbefore : (before.filterMap fun a => if a.1 = n then some a.2 else none) = [] := by
        rw [List.filterMap_eq_nil_iff]
        intro a ha
        rw [if_neg (Nat.ne_of_lt (hb a ha))]
      rw [List.filterMap_append, hbefore, List.nil_append, ← List.filterMap_eq_map]
      refine List.filterMap_congr fun a ha => ?_
      rw [if_pos (he a ha)]
      rfl

namespace FlowGraph

variable {exitEdges : Except Fault Bool} {tree : Value} {g : FlowGraph}

/-- The expressions at the sites of a function are pieces of those of its body, in the order of
evaluation. -/
theorem exprs_sites (h : ofTree exitEdges tree = .ok g) :
    (nodesAll (g.sites.flatMap (·.exprs))).filter mayTouch =
      (nodesAll (bodyOf tree).exprs).filter mayTouch ∧
    ∀ e ∈ g.sites.flatMap (·.exprs), e.connected = false := by
  obtain ⟨whole, hg⟩ := exists_drafted (ofBody_of_ofTree h)
  have hw : whole.draft.Attaches (bodyOf tree).exprs 0 0 := Stmt.attaches.flow hg.flow
  have hn : whole.draft.Numbered 0 := (Stmt.laid.flow hg.flow).numbered
  have hexprs : g.sites.flatMap (·.exprs) = whole.draft.attached.map (·.2) := by
    rw [← flatMap_attached hw.sorted fun a ha => (hw.within a ha).2, Nat.zero_add,
      List.range_eq_range', ← hn.sites, hg.sites, filledSites, List.flatMap_map, List.flatMap_map]
  rw [hexprs]
  refine ⟨hw.touching, fun e he => ?_⟩
  obtain ⟨a, ha, rfl⟩ := List.mem_map.1 he
  exact hw.plain a ha

end FlowGraph

end LastUse
