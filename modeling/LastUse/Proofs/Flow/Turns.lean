import Mathlib.Data.List.Nodup
import LastUse.Proofs.Fences

/-!
# The flow through a condition

A condition consists of connectives over operands. Each operand is evaluated at a site of its own
and control goes on from there by its truth value: to the next operand that is needed, or to one of
two places behind the condition. `Expr.turns` says where, by recursion on the condition. The flow
through it makes just these turns (`Expr.flow_turns`): whatever its exits are led to, they take the
labels of the truth values.
-/

namespace LastUse

/-! ## Frontiers with one label -/

/-- Without duplicates each element is there once. -/
theorem nodup_eraseDups {α : Type} [BEq α] [LawfulBEq α] : ∀ l : List α, l.eraseDups.Nodup
  | [] => by simp
  | a :: rest => by
    rw [List.eraseDups_cons, List.nodup_cons]
    exact ⟨by simp [List.mem_eraseDups], nodup_eraseDups _⟩
termination_by l => l.length
decreasing_by exact Nat.lt_succ_of_le (List.length_filter_le _ _)

/-- A labelled frontier has the sources of the frontier, with the one label. -/
theorem mem_labelled_iff {fr : Frontier} {l : EdgeLabel} {d : Vertex × EdgeLabel} :
    d ∈ labelled fr l ↔ d.1 ∈ sources fr ∧ d.2 = l := by
  rw [mem_sources]
  exact mem_labelled

/-- A frontier with one label leads from each of its sources once. -/
theorem nodup_labelled (fr : Frontier) (l : EdgeLabel) : (labelled fr l).Nodup :=
  List.Nodup.map (fun _ _ h => (Prod.mk.inj h).1) (nodup_eraseDups _)

/-- Two frontiers with different sources may be given a label one by one. -/
theorem labelled_append_perm {a b : Frontier} (hd : ∀ v ∈ sources a, v ∉ sources b)
    (l l' : EdgeLabel) :
    (labelled (labelled a l' ++ b) l).Perm (labelled a l ++ labelled b l) := by
  refine (List.perm_ext_iff_of_nodup (nodup_labelled _ _) ?_).2 fun d => ?_
  · refine List.nodup_append.2 ⟨nodup_labelled _ _, nodup_labelled _ _, ?_⟩
    rintro d hda _ hdb rfl
    exact hd d.1 (mem_labelled_iff.1 hda).1 (mem_labelled_iff.1 hdb).1
  · simp only [List.mem_append, mem_labelled_iff, sources_append, mem_sources_labelled]
    exact or_and_right

/-- The order of a frontier does not matter but for the order of the edges. -/
theorem leadTo_perm {a b : Frontier} (h : a.Perm b) (v : Vertex) :
    (leadTo a v).Perm (leadTo b v) := h.map _

namespace Expr

/-! ## Conditions -/

/-- Whether an expression consists of connectives over operands in which no connective occurs. -/
def splits : Expr → Bool
  | .logic _ _ l r => l.splits && r.splits
  | e => !e.connected

/-- The operands that a condition comes down to, from left to right. -/
def operands : Expr → List Expr
  | .logic _ _ l r => l.operands ++ r.operands
  | e => [e]

/-- The truth value of a condition, given those of its operands. -/
def holds (value : Expr → Bool) : Expr → Bool
  | .logic _ .and l r => l.holds value && r.holds value
  | .logic _ .or l r => l.holds value || r.holds value
  | e => value e

/-- The operands that are evaluated, in order. The right operand of a connective is evaluated if
the left one does not settle the result. -/
def tested (value : Expr → Bool) : Expr → List Expr
  | .logic _ .and l r => l.tested value ++ if l.holds value then r.tested value else []
  | .logic _ .or l r => l.tested value ++ if l.holds value then [] else r.tested value
  | e => [e]

end Expr

/-- Where control goes from the site of an operand. -/
structure Turn where
  site : Nat
  yes : Vertex
  no : Vertex

/-- The label of the edge for a truth value. -/
def EdgeLabel.ofTruth (value : Bool) : EdgeLabel := if value then .posNext else .negNext

/-- Whether an edge begins at a site and is for a truth value there. -/
def Edge.isTurn (site : Nat) (value : Bool) (e : Edge) : Bool :=
  e.source = .site site ∧ e.label = .ofTruth value

namespace Turn

/-- The edge for a truth value. -/
def edge (t : Turn) (value : Bool) : Edge :=
  ⟨.site t.site, if value then t.yes else t.no, .ofTruth value⟩

/-- The edges from the site of an operand. -/
def edges (t : Turn) : List Edge := [t.edge true, t.edge false]

/-- Of the edges from an operand one is for each truth value. -/
theorem filter_edges (t : Turn) (value : Bool) :
    t.edges.filter (Edge.isTurn t.site value) = [t.edge value] := by
  cases value <;> simp [edges, edge, Edge.isTurn, EdgeLabel.ofTruth]

/-- No edge from an operand is from another site. -/
theorem filter_edges_eq_nil {t : Turn} {site : Nat} (h : t.site ≠ site) (value : Bool) :
    t.edges.filter (Edge.isTurn site value) = [] := by
  simp [edges, edge, Edge.isTurn, h]

/-- Among turns at different sites, one edge begins at each site for each truth value. -/
theorem filter_flatMap {ts : List Turn} (hn : (ts.map (·.site)).Nodup) {t : Turn} (ht : t ∈ ts)
    (value : Bool) : (ts.flatMap edges).filter (Edge.isTurn t.site value) = [t.edge value] := by
  induction ts with
  | nil => cases ht
  | cons t' rest ih =>
    rw [List.map_cons, List.nodup_cons] at hn
    rw [List.flatMap_cons, List.filter_append]
    rcases List.mem_cons.1 ht with rfl | ht
    · have hrest : (rest.flatMap edges).filter (Edge.isTurn t.site value) = [] := by
        rw [List.filter_flatMap, List.flatMap_eq_nil_iff]
        intro t' ht'
        exact filter_edges_eq_nil (fun h => hn.1 (List.mem_map.2 ⟨t', ht', h⟩)) value
      rw [filter_edges, hrest, List.append_nil]
    · rw [filter_edges_eq_nil (fun h => hn.1 (List.mem_map.2 ⟨t, ht, h.symm⟩)), ih hn.2 ht,
        List.nil_append]

end Turn

namespace Expr

/-- Where control goes from the sites of the operands of a condition, which are numbered from `n`
on, if it goes to `yes` behind a condition that holds and to `no` behind one that does not. -/
def turns : Expr → Nat → (yes no : Vertex) → List Turn
  | .logic _ .and l r, n, yes, no =>
    l.turns n (.site (n + l.operands.length)) no ++ r.turns (n + l.operands.length) yes no
  | .logic _ .or l r, n, yes, no =>
    l.turns n yes (.site (n + l.operands.length)) ++ r.turns (n + l.operands.length) yes no
  | _, n, yes, no => [⟨n, yes, no⟩]

/-- Induction on the connectives of a condition. -/
@[elab_as_elim] theorem inductionOnConnectives {motive : Expr → Prop}
    (operand : ∀ e, e.isConnective = false → motive e)
    (logic : ∀ p c l r, motive l → motive r → motive (.logic p c l r)) : ∀ e, motive e
  | .logic p c l r =>
    logic p c l r (inductionOnConnectives operand logic l) (inductionOnConnectives operand logic r)
  | .absent | .stray _ | .unlisted | .foreign .. | .name .. | .literal .. | .call .. | .unary ..
  | .binary .. | .assign .. | .member .. | .index .. | .addressOf .. | .move .. => operand _ rfl

section

variable {e : Expr} (he : e.isConnective = false)
include he

/-- An operand is the only one of itself. -/
theorem operands_of_operand : e.operands = [e] := by cases e <;> first | rfl | cases he

/-- From the site of an operand control turns to one of both places behind it. -/
theorem turns_of_operand (n : Nat) (yes no : Vertex) : e.turns n yes no = [⟨n, yes, no⟩] := by
  cases e <;> first | rfl | cases he

/-- An operand holds as its value says. -/
theorem holds_of_operand (value : Expr → Bool) : e.holds value = value e := by
  cases e <;> first | rfl | cases he

/-- Of an operand the operand itself is evaluated. -/
theorem tested_of_operand (value : Expr → Bool) : e.tested value = [e] := by
  cases e <;> first | rfl | cases he

end

/-- The turns are made at the sites of the operands. -/
theorem map_site_turns (e : Expr) (n : Nat) (yes no : Vertex) :
    (e.turns n yes no).map (·.site) = List.range' n e.operands.length := by
  induction e using inductionOnConnectives generalizing n yes no with
  | operand e he => rw [turns_of_operand he, operands_of_operand he]; rfl
  | logic p c l r ihl ihr =>
    cases c <;> rw [turns, List.map_append, ihl, ihr, List.range'_append_1, operands,
      List.length_append]

/-- Edges that make the turns of a condition: one begins at the site of an operand for each truth
value. -/
theorem filter_turns {e : Expr} {n : Nat} {yes no : Vertex} {edges : List Edge}
    (h : edges.Perm ((e.turns n yes no).flatMap Turn.edges)) {t : Turn} (ht : t ∈ e.turns n yes no)
    (value : Bool) : edges.filter (Edge.isTurn t.site value) = [t.edge value] := by
  have hn : ((e.turns n yes no).map (·.site)).Nodup :=
    map_site_turns e n yes no ▸ List.nodup_range'
  have hp := h.filter (Edge.isTurn t.site value)
  rw [Turn.filter_flatMap hn ht] at hp
  exact hp.eq_singleton

/-- Such edges begin at the sites of the operands. -/
theorem source_of_turns {e : Expr} {n : Nat} {yes no : Vertex} {edges : List Edge}
    (h : edges.Perm ((e.turns n yes no).flatMap Turn.edges)) {d : Edge} (hd : d ∈ edges) :
    d.source.Within n e.operands.length := by
  obtain ⟨t, ht, hdt⟩ := List.mem_flatMap.1 (h.subset hd)
  have hs : t.site ∈ List.range' n e.operands.length :=
    map_site_turns e n yes no ▸ List.mem_map_of_mem ht
  rw [List.mem_range'_1] at hs
  refine ⟨t.site, ?_, hs⟩
  simp only [Turn.edges, List.mem_cons, List.not_mem_nil, or_false] at hdt
  rcases hdt with rfl | rfl <;> rfl

end Expr

/-- The flow through a condition whose operands have the sites from `n` on: the operands own their
sites, and once its exits are led on, its edges are those that make the turns. -/
structure Flow.Turns (e : Expr) (n : Nat) (fr : Frontier) (f : Flow) : Prop where
  sites : f.draft.sites.length = e.operands.length
  owned : List.Forall₂ (fun x o => ∀ q ∈ x.place?, (q, o) ∈ f.draft.owned) e.operands
    (List.range' n e.operands.length)
  exits : ∀ v ∈ sources f.exits.out, v.Within n e.operands.length
  edges : ∃ own, f.draft.edges = leadTo fr (.site n) ++ own ∧ ∀ yes no,
    (own ++ leadTo (labelled f.exits.yes .posNext) yes ++ leadTo
      (labelled f.exits.no .negNext) no).Perm ((e.turns n yes no).flatMap Turn.edges)

namespace Flow.Turns

variable {h : Host} {e l r : Expr} {p : Path} {c : Connective}
  {n : Nat} {fr : Frontier} {left right : Flow}

/-- An operand in which no connective occurs. -/
theorem leaf {s : Site} (hs : s.ordinal = n) (he : e.isConnective = false) :
    ({ (Flow.plain h e (n + 1) (some n) (onward n)) with
      draft := Draft.ofSite s fr ++ (Flow.plain h e (n + 1) (some n) (onward n)).draft } :
      Flow).Turns e n fr := by
  have ho := Expr.operands_of_operand he
  subst hs
  refine ⟨by simp [ho, plain, atFragment, Draft.ofSite, Draft.ofExpr], ?_, ?_, [], ?_,
    fun yes no => ?_⟩
  · rw [ho]
    refine .cons (fun q hq => ?_) .nil
    have hn : e.isNode = true := by rw [Expr.isNode, Option.mem_def.1 hq, Option.isSome_some]
    simp only [plain, atFragment, Draft.owned_append, Draft.ofExpr, List.mem_append,
      List.mem_filterMap]
    refine .inr ⟨e, ?_, by simp [Option.mem_def.1 hq]⟩
    rw [Expr.preorder_eq_nodes, Expr.nodes_of_isNode hn]
    exact List.mem_cons_self
  · intro v hv
    rw [ho]
    simp only [plain, atFragment, Exits.out, sources_onward, List.mem_singleton] at hv
    exact ⟨s.ordinal, hv, Nat.le_refl _, by simp⟩
  · simp [plain, atFragment, Draft.ofSite, Draft.ofExpr]
  · rw [Expr.turns_of_operand he]
    exact .refl _

/-- The sides of a connective are left from different sites. -/
theorem disjoint_exits (hl : left.Turns l n fr) {fr' : Frontier}
    (hr : right.Turns r (n + l.operands.length) fr') :
    ∀ v ∈ sources left.exits.out, v ∉ sources right.exits.out := by
  intro v hv hv'
  obtain ⟨o, rfl, -, ho⟩ := hl.exits v hv
  obtain ⟨_, ⟨⟩, ho', -⟩ := hr.exits _ hv'
  omega

/-- The edges that lead on the exit which both operands of a connective have. -/
theorem joint_perm {a b : Frontier} (hd : ∀ v ∈ sources a, v ∉ sources b) (l : EdgeLabel)
    (v : Vertex) :
    (leadTo (labelled (labelled a l ++ b) l) v).Perm
      (leadTo (labelled a l) v ++ leadTo (labelled b l) v) := by
  have hp := leadTo_perm (labelled_append_perm hd l l) v
  rwa [leadTo, leadTo, List.map_append] at hp

/-- A connective and its operands. -/
theorem logic {o : Option Nat} (hl : left.Turns l n fr)
    (hr : right.Turns r (n + left.draft.sites.length) (Flow.entry c left.exits)) :
    (⟨left.draft ++ right.draft, o, Flow.combine c left.exits right.exits⟩ : Flow).Turns
      (.logic p c l r) n fr := by
  rw [hl.sites] at hr
  have hd := hl.disjoint_exits hr
  simp only [Exits.mem_sources_out] at hd
  obtain ⟨ownL, hel, hpl⟩ := hl.edges
  obtain ⟨ownR, her, hpr⟩ := hr.edges
  refine ⟨by simp [Expr.operands, hl.sites, hr.sites], ?_, ?_,
    ownL ++ leadTo (Flow.entry c left.exits) (.site (n + l.operands.length)) ++ ownR, ?_,
    fun yes no => ?_⟩
  · rw [Expr.operands, List.length_append, ← List.range'_append_1]
    refine List.rel_append (hl.owned.imp fun x o hx q hq => ?_)
      (hr.owned.imp fun x o hx q hq => ?_)
    · exact List.mem_append_left _ (hx q hq)
    · exact List.mem_append_right _ (hx q hq)
  · intro v hv
    rw [Expr.operands, List.length_append]
    have hv : v ∈ sources left.exits.out ∨ v ∈ sources right.exits.out := by
      cases c <;> simp [Flow.combine] at hv ⊢ <;> tauto
    rcases hv with hv | hv
    · exact (hl.exits v hv).mono (Nat.le_refl n) (by omega)
    · exact (hr.exits v hv).mono (by omega) (by omega)
  · simp [hel, her]
  · -- The exit of the left operand that leads to the right one is closed, the other one is joined.
    refine List.perm_iff_count.2 fun e => ?_
    cases c with
    | and =>
      have hj := (joint_perm (fun v ha hb => hd v (.inr ha) (.inr hb)) .negNext no).count_eq e
      have hpl := (hpl (.site (n + l.operands.length)) no).count_eq e
      have hpr := (hpr yes no).count_eq e
      simp only [Flow.combine, Flow.entry, Exits.yes_forked, Exits.no_forked, Expr.turns,
        List.flatMap_append, List.count_append] at hj hpl hpr ⊢
      omega
    | or =>
      have hj := (joint_perm (fun v ha hb => hd v (.inl ha) (.inl hb)) .posNext yes).count_eq e
      have hpl := (hpl yes (.site (n + l.operands.length))).count_eq e
      have hpr := (hpr yes no).count_eq e
      simp only [Flow.combine, Flow.entry, Exits.yes_forked, Exits.no_forked, Expr.turns,
        List.flatMap_append, List.count_append] at hj hpl hpr ⊢
      omega

end Flow.Turns

namespace Expr

/-- An operand of a condition is without connectives. -/
theorem not_connected_of_splits {e : Expr} (hc : e.isConnective = false) (hs : e.splits = true) :
    e.connected = false := by
  cases e with
  | logic => cases hc
  | _ => simpa [splits] using hs

/-- The flow through a condition makes its turns. -/
theorem flow_turns (h : Host) : FlowInvariant h
    (fun e n o fr f => (e.connected = false → f = .plain h e n o fr) ∧
      (e.isConnective = true → e.splits = true → f.Turns e n fr))
    (fun _ _ _ _ _ => True) (fun _ e n fr f => e.splits = true → f.Turns e n fr) where
  plain {e} _ _ _ hc := by
    refine ⟨fun _ => rfl, fun hl => ?_⟩
    cases e with
    | logic => simp [connected] at hc
    | _ => cases hl
  finish _ hc _ hs _ := by
    refine ⟨fun hn => ?_, fun hl => ?_⟩
    · rw [hs] at hn
      cases hn
    · rw [hc] at hl
      cases hl
  logic hl hr := by
    refine ⟨nofun, fun _ hs => ?_⟩
    rw [splits, Bool.and_eq_true] at hs
    exact .logic (hl hs.1) (hr hs.2)
  nil := trivial
  cons _ _ := trivial
  nested hc hp hs := hp.2 hc hs
  leaf hc hp hs := by
    rw [hp.1 (not_connected_of_splits hc hs)]
    exact .leaf rfl hc

end Expr

end LastUse
