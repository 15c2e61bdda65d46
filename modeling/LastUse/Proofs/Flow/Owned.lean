import LastUse.Proofs.Flow.Attached
import LastUse.Proofs.Flow.Nesting

/-!
# Which sites own the nodes of expressions

The flow through a statement gives every node of an expression that is no connective one owner. It
is a site of the statement to which the expression belongs, and every statement that has sites at
all has one of its own (`Stmt.owns`).
-/

namespace LastUse

open LastUse.Expr (nodesAll)

/-- The places of the nodes of some expressions that are no connectives. -/
def Expr.ownable (es : List Expr) : List Path :=
  ((nodesAll es).filter fun x => !x.isConnective).filterMap place?

/-- These places, each with that of the statement to which the expressions belong. -/
def Expr.held (stmt : Path) (es : List Expr) : List (Path × Path) := (ownable es).map (·, stmt)

namespace Expr

/-- The nodes of some expressions and further ones are those of both. -/
theorem ownable_append (es es' : List Expr) : ownable (es ++ es') = ownable es ++ ownable es' := by
  simp only [ownable, nodesAll_append, List.filter_append, List.filterMap_append]

/-- A connective has no node of its own that is owned, only those of its sides. -/
theorem ownable_logic (p : Path) (c : Connective) (l r : Expr) :
    ownable [.logic p c l r] = ownable [l] ++ ownable [r] := by
  rw [← ownable_append]
  simp [ownable, nodesAll, nodes, isConnective]

/-- All nodes of an expression in which no connective occurs have owners. -/
theorem ownable_of_not_connected {e : Expr} (h : e.connected = false) :
    ownable [e] = e.preorder.filterMap place? := by
  rw [connected_eq_any, List.any_eq_false] at h
  rw [ownable, preorder_eq_nodes, nodesAll, nodesAll, List.append_nil,
    List.filter_eq_self.2 fun x hx => by simpa using h x hx]

/-- A node that is no connective comes before those of its parts. -/
theorem ownable_of_place {e : Expr} {p : Path} (hp : e.place? = some p)
    (hc : e.isConnective = false) : ownable [e] = p :: ownable e.parts := by
  have hn : e.isNode = true := by rw [isNode, hp, Option.isSome_some]
  rw [ownable, nodesAll, nodesAll, List.append_nil, nodes_of_isNode hn,
    List.filter_cons_of_pos (by simp [hc]), List.filterMap_cons_some hp, ownable]

end Expr

/-! ## Expressions -/

/-- A site is the fragment that was open before a flow or one of the sites of the flow. -/
def Flow.Has (o : Option Nat) (f : Flow) (k : Nat) : Prop :=
  k ∈ o ∨ k ∈ f.draft.sites.map (·.ordinal)

/-- The flow through expressions gives owners to the nodes at some places: the open fragment and
sites of its own. -/
structure Flow.Owns (places : List Path) (o : Option Nat) (f : Flow) : Prop where
  places : (f.draft.owned.map (·.1)).Perm places
  owners : ∀ w ∈ f.draft.owned, f.Has o w.2
  fragment : ∀ k ∈ f.fragment, f.Has o k

namespace Flow.Owns

variable {h : Host} {a b : List Path} {n : Nat} {o : Option Nat} {fr : Frontier}
  {f first later left right : Flow}

/-- The order of the places does not matter. -/
theorem perm (hf : f.Owns a o) (hp : a.Perm b) : f.Owns b o :=
  ⟨hf.places.trans hp, hf.owners, hf.fragment⟩

/-- The flow through a fragment, which owns what is evaluated there. -/
theorem atFragment {evaluated : Nat → Draft} (hp : ∀ k, ((evaluated k).owned.map (·.1)).Perm a)
    (ho : ∀ k, ∀ w ∈ (evaluated k).owned, w.2 = k) :
    (Flow.atFragment h n o fr evaluated).Owns a o := by
  cases o with
  | some k =>
    refine ⟨hp k, fun w hw => .inl ?_, fun _ hk => .inl hk⟩
    rw [ho k w hw]
    rfl
  | none =>
    refine ⟨hp n, fun w hw => .inr ?_, fun k hk => .inr ?_⟩
    · rw [ho n w hw]
      exact List.mem_cons_self
    · cases hk
      exact List.mem_cons_self

/-- The flow through no expression gives no owners. -/
theorem nil : (⟨{}, o, .straight fr⟩ : Flow).Owns [] o := ⟨.nil, by simp, fun _ hk => .inl hk⟩

/-- One flow after another, which begins at the fragment that the first one leaves open. -/
theorem andThen (hf : first.Owns a o) (hl : later.Owns b first.fragment) :
    ({ later with draft := first.draft ++ later.draft } : Flow).Owns (a ++ b) o := by
  have hfirst : ∀ k, first.Has o k →
      ({ later with draft := first.draft ++ later.draft } : Flow).Has o k := by
    rintro k (hk | hk)
    · exact .inl hk
    · refine .inr ?_
      rw [Draft.sites_append, List.map_append]
      exact List.mem_append_left _ hk
  have hlater : ∀ k, later.Has first.fragment k →
      ({ later with draft := first.draft ++ later.draft } : Flow).Has o k := by
    rintro k (hk | hk)
    · exact hfirst k (hf.fragment k hk)
    · refine .inr ?_
      rw [Draft.sites_append, List.map_append]
      exact List.mem_append_right _ hk
  refine ⟨?_, fun w hw => ?_, fun k hk => hlater k (hl.fragment k hk)⟩
  · rw [Draft.owned_append, List.map_append]
    exact hf.places.append hl.places
  · rw [Draft.owned_append, List.mem_append] at hw
    exact hw.elim (fun hw => hfirst _ (hf.owners w hw)) fun hw => hlater _ (hl.owners w hw)

/-- The flow through a node behind its parts, which a fragment owns. -/
theorem finish {p : Path} (hf : f.Owns a o) : (Flow.finish h p n f).Owns (p :: a) o := by
  have hown : (Flow.atFragment h (n + f.draft.sites.length) f.fragment f.exits.out
      fun o => Draft.ofOwned p o).Owns [p] f.fragment := by
    refine atFragment (fun _ => .refl _) fun k w hw => ?_
    cases List.mem_singleton.1 hw
    rfl
  exact (hf.andThen hown).perm List.perm_append_comm

/-- A flow that needs no open fragment may have one. -/
theorem weaken (hf : f.Owns a none) (o : Option Nat) : f.Owns a o := by
  have hhas : ∀ k, f.Has none k → f.Has o k := by
    rintro k (hk | hk)
    · cases hk
    · exact .inr hk
  exact ⟨hf.places, fun w hw => hhas _ (hf.owners w hw), fun k hk => hhas k (hf.fragment k hk)⟩

/-- The flow through a connective, from those through its operands. -/
theorem logic {exits : Exits} (hl : left.Owns a none) (hr : right.Owns b none) :
    (⟨left.draft ++ right.draft, none, exits⟩ : Flow).Owns (a ++ b) o := by
  have hboth := (hl.weaken o).andThen (hr.weaken left.fragment)
  refine ⟨hboth.places, hboth.owners, fun k hk => ?_⟩
  cases hk

/-- The flow through a site, then through what is evaluated behind it. -/
theorem behindSite {s : Site} (hs : s.ordinal = n) (hf : f.Owns a (some n)) :
    ({ f with draft := Draft.ofSite s fr ++ f.draft } : Flow).Owns a none := by
  have hhas : ∀ k, f.Has (some n) k →
      ({ f with draft := Draft.ofSite s fr ++ f.draft } : Flow).Has none k := by
    rintro k (hk | hk)
    · cases hk
      exact .inr (hs ▸ List.mem_cons_self)
    · exact .inr (List.mem_cons_of_mem _ hk)
  exact ⟨hf.places, fun w hw => hhas _ (hf.owners w hw), fun k hk => hhas k (hf.fragment k hk)⟩

end Flow.Owns

/-- The flow through an expression gives owners to its nodes but for the connectives. -/
theorem Expr.owns (h : Host) : Expr.FlowInvariant h (fun e _ o _ f => f.Owns (ownable [e]) o)
    (fun es _ o _ f => f.Owns (ownable es) o) (fun _ e _ _ f => f.Owns (ownable [e]) none) where
  plain hc := by
    rw [ownable_of_not_connected hc]
    refine .atFragment (fun k => .of_eq ?_) fun k w hw => ?_
    · simp [Draft.ofExpr, List.map_filterMap, Function.comp_def]
    · obtain ⟨x, -, hx⟩ := List.mem_filterMap.1 hw
      obtain ⟨p, -, rfl⟩ := Option.map_eq_some_iff.1 hx
      rfl
  finish hp hc _ _ hq := by
    rw [ownable_of_place hp hc]
    exact .finish hq
  logic hl hr := by
    rw [ownable_logic]
    exact .logic hl hr
  nil := .nil
  cons hf hl := by
    rw [← List.singleton_append, ownable_append]
    exact .andThen hf hl
  nested _ hf := hf
  leaf _ hf := .behindSite rfl hf

/-! ## Statements -/

/-- A draft has a site for each of some statements and owners for the nodes at some places, each of
which belongs to the statement that the place comes with. -/
structure Draft.Owns (hosts : List (Path × Bool)) (pairs : List (Path × Path)) (d : Draft) :
    Prop where
  hosts : ∀ h ∈ hosts, ∃ s ∈ d.sites, s.stmt = h.1
  places : (d.owned.map (·.1)).Perm (pairs.map (·.1))
  owners : ∀ w ∈ d.owned, ∃ s ∈ d.sites, s.ordinal = w.2 ∧ (w.1, s.stmt) ∈ pairs

namespace Draft.Owns

variable {x y : List (Path × Bool)} {u v : List (Path × Path)}
  {a b d : Draft} {h : Host} {e : Expr} {n : Nat} {fr : Frontier} {p : Path}

/-- An empty draft gives no owners. -/
theorem empty : Owns [] [] {} := ⟨by simp, .nil, by simp⟩

/-- Edges alone give no owners. -/
theorem ofEdges {edges : List Edge} : Owns [] [] (Draft.ofEdges edges) :=
  ⟨by simp, .nil, by simp [Draft.ofEdges]⟩

/-- What two drafts own is what both do. -/
theorem append (ha : a.Owns x u) (hb : b.Owns y v) : (a ++ b).Owns (x ++ y) (u ++ v) where
  hosts h hh := by
    rcases List.mem_append.1 hh with hh | hh
    · obtain ⟨s, hs, hstmt⟩ := ha.hosts h hh
      exact ⟨s, List.mem_append_left _ hs, hstmt⟩
    · obtain ⟨s, hs, hstmt⟩ := hb.hosts h hh
      exact ⟨s, List.mem_append_right _ hs, hstmt⟩
  places := by
    rw [owned_append, List.map_append, List.map_append]
    exact ha.places.append hb.places
  owners w hw := by
    rw [owned_append, List.mem_append] at hw
    rcases hw with hw | hw
    · obtain ⟨s, hs, ho, hp⟩ := ha.owners w hw
      exact ⟨s, List.mem_append_left _ hs, ho, List.mem_append_left _ hp⟩
    · obtain ⟨s, hs, ho, hp⟩ := hb.owners w hw
      exact ⟨s, List.mem_append_right _ hs, ho, List.mem_append_right _ hp⟩

/-- A draft with the same sites and owners, for the same statements and places in another order. -/
theorem congr (ha : a.Owns x u) (hs : b.sites = a.sites) (ho : b.owned = a.owned)
    (hx : ∀ h ∈ y, h ∈ x) (hu : u.Perm v) : b.Owns y v where
  hosts h hh := hs ▸ ha.hosts h (hx h hh)
  places := ho ▸ ha.places.trans (hu.map _)
  owners w hw := by
    obtain ⟨s, hm, hord, hp⟩ := ha.owners w (ho ▸ hw)
    exact ⟨s, hs ▸ hm, hord, hu.mem_iff.1 hp⟩

/-- The draft of one site of a statement. -/
theorem ofSite {s : Site} {ret : Bool} (hp : s.stmt = p) (hs : d.sites = [s]) (ho : d.owned = []) :
    d.Owns [(p, ret)] [] where
  hosts h hh := by
    cases List.mem_singleton.1 hh
    exact ⟨s, hs ▸ List.mem_singleton_self s, hp⟩
  places := by rw [ho, List.map_nil, List.map_nil]
  owners w hw := by
    rw [ho] at hw
    cases hw

/-- The draft of a site of a statement and of what the statement evaluates from there on. -/
theorem behindSite (ret : Bool) {s : Site} {f : Flow} (hp : s.stmt = h.stmt) (ho : s.ordinal = n)
    (hf : e.flow h (n + 1) (some n) (onward n) = .ok f) :
    (Draft.ofSite s fr ++ f.draft).Owns [(h.stmt, ret)] (Expr.held h.stmt [e]) where
  hosts x hx := by
    cases List.mem_singleton.1 hx
    exact ⟨s, List.mem_cons_self, hp⟩
  places := by
    rw [Expr.held, List.map_map]
    simpa [Draft.ofSite, Function.comp_def] using ((Expr.owns h).flow hf).places
  owners w hw := by
    have howns :
        ({ f with draft := Draft.ofSite s fr ++ f.draft } : Flow).Owns (Expr.ownable [e]) none :=
      .behindSite ho ((Expr.owns h).flow hf)
    have hstmt : ∀ t ∈ (Draft.ofSite s fr ++ f.draft).sites, t.stmt = h.stmt := by
      intro t ht
      rcases List.mem_append.1 ht with ht | ht
      · cases List.mem_singleton.1 ht
        exact hp
      · exact (((Expr.laid h).flow hf).hosted.host t ht).1
    obtain hk | hk := howns.owners w hw
    · cases hk
    · obtain ⟨t, ht, hord⟩ := List.mem_map.1 hk
      refine ⟨t, ht, hord, ?_⟩
      rw [hstmt t ht]
      exact List.mem_map.2 ⟨w.1, howns.places.mem_iff.1 (List.mem_map.2 ⟨w, hw, rfl⟩), rfl⟩

/-- The head of a statement has a site for it and owns the nodes of its expression. -/
theorem ofHead (ret : Bool) (H : Stmt.Headed h e n fr d) :
    d.Owns [(h.stmt, ret)] (Expr.held h.stmt [e]) := by
  cases H with
  | bare he =>
    have hnone : Expr.held h.stmt [e] = [] := by cases e <;> first | rfl | cases he
    rw [hnone]
    exact .ofSite rfl rfl rfl
  | flow hf => exact .behindSite ret rfl rfl hf

/-- The start or the step of a loop owns the nodes of its expression. -/
theorem ofSide {r : Passage} (H : Stmt.Side h e n fr r) :
    r.draft.Owns [] (Expr.held h.stmt [e]) := by
  cases H with
  | absent he =>
    have hnone : Expr.held h.stmt [e] = [] := by cases e <;> first | rfl | cases he
    rw [hnone]
    exact .empty
  | site _ hf => exact (behindSite false rfl rfl hf).congr rfl rfl (by simp) (.refl _)

end Draft.Owns

namespace Stmt

mutual

/-- The places of the expression nodes in a statement that have owners, each with the place of the
statement to which it belongs. -/
def holdings : Stmt → List (Path × Path)
  | .exprStmt p e | .decl p _ e | .ret p e => Expr.held p [e]
  | .block _ body | .caseArm _ _ body => holdingsAll body
  | .ifElse p cond thenArm elseArm => Expr.held p [cond] ++ (thenArm.holdings ++ elseArm.holdings)
  | .whileLoop p e body | .foreach p _ e body => Expr.held p [e] ++ body.holdings
  | .doWhile p body cond => body.holdings ++ Expr.held p [cond]
  | .forLoop p before init cond step body =>
    before.holdings ++ (Expr.held p [init] ++
      (Expr.held p [cond] ++ (body.holdings ++ Expr.held p [step])))
  | .switch p subject arms => Expr.held p [subject] ++ holdingsAll arms
  | .labeled _ _ body => body.holdings
  | .absent | .stray _ | .unlisted | .misnamed _ | .goto .. | .brk _ | .cont _ => []

/-- The places of the expression nodes in several statements that have owners. -/
def holdingsAll : List Stmt → List (Path × Path)
  | [] => []
  | s :: rest => s.holdings ++ holdingsAll rest

end

/-- The flow through a statement has a site for every statement that has sites, and it gives every
node of an expression an owner that belongs to the statement of the expression. -/
theorem owns : FlowInvariant (fun _ s _ _ r => r.draft.Owns s.hosts s.holdings)
    (fun _ ss _ _ r => r.draft.Owns (hostsAll ss) (holdingsAll ss))
    (fun _ arms _ _ _ r => r.draft.Owns (hostsAll arms) (holdingsAll arms)) where
  absent := .empty
  block h := h
  exprStmt hh := .ofHead false (headed_of_optional hh)
  decl hh := .ofHead false (headed_of_optional hh)
  ifElse hh hy hn := by
    have hhead := Draft.Owns.ofHead false (headed_of_evaluating hh)
    exact (hhead.append (hy.append hn)).congr rfl rfl (fun _ h => h) (.refl _)
  whileLoop hh hb := by
    have hhead := Draft.Owns.ofHead false (headed_of_loop hh)
    refine (((hhead.append hb).append .empty).append .ofEdges).congr rfl rfl ?_ (.of_eq ?_)
    · simp [hosts, headerHost]
    · simp [holdings, headerHost]
  forLoop hf hi _ hh hb hs := by
    have hstart := Draft.Owns.ofSide (side_of_init hi)
    have hhead := Draft.Owns.ofHead false (headed_of_loop hh)
    have hstep := Draft.Owns.ofSide (side_of_step hs)
    refine ((hf.append hstart).append (((hhead.append hb).append hstep).append .ofEdges)).congr
      rfl rfl ?_ (.of_eq ?_)
    · simp only [hosts, headerHost, List.mem_append, List.mem_cons]
      tauto
    · simp [holdings, plainHost, headerHost]
  foreach hh hb := by
    have hhead := Draft.Owns.ofHead false (headed_of_evaluating hh)
    refine (((hhead.append hb).append .empty).append .ofEdges).congr rfl rfl ?_ (.of_eq ?_)
    · simp [hosts, headerHost]
    · simp [holdings, headerHost]
  doWhile hb hh := by
    have hhead := Draft.Owns.ofHead false (headed_of_loop hh)
    refine ((hb.append hhead).append .ofEdges).congr rfl rfl ?_ (.of_eq ?_)
    · simp only [hosts, headerHost, List.mem_append, List.mem_cons]
      tauto
    · simp [holdings, headerHost]
  switch hh ha := by
    have hhead := Draft.Owns.ofHead false (headed_of_evaluating hh)
    exact (hhead.append ha).congr rfl rfl (fun _ h => h) (.refl _)
  labeled {sc p label text _ c fr _} _ hb := by
    have hlabel : (labelDraft sc p label text c.next fr).Owns [(p, false)] [] :=
      .ofSite rfl rfl rfl
    exact hlabel.append hb
  goto := .ofSite rfl rfl rfl
  ret hh _ := by
    have hhead := Draft.Owns.ofHead true (headed_of_optional hh)
    refine hhead.congr ?_ ?_ (fun _ h => h) (.refl _)
    · simp [closeReturn]
    · simp [closeReturn]
  brk _ := .ofSite rfl rfl rfl
  cont _ := .ofSite rfl rfl rfl
  nil := .empty
  cons hf hl := hf.append hl
  noArms := .empty
  arm hf hl := hf.append hl

end Stmt

end LastUse
