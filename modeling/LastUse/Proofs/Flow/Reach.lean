import Mathlib.Data.List.Chain
import Mathlib.Logic.Relation
import LastUse.Flow.Reach
import LastUse.Proofs.Flow.Layout
import LastUse.Proofs.Sample

/-!
# Paths through a flow graph

The search finds exactly the vertices that a path leads to (`mem_reachable`). A path that comes
back to a site goes over it along the back edge of a loop or along a jump, so the site stands in a
loop or is among those that a jump can run again (`FlowGraph.Laid.repeats_of_cycle`, and for the
sites of a function `FlowGraph.covered_of_cycle`). From a `return` control only goes ahead to the
exit (`FlowGraph.Laid.ahead_of_inReturn`).
-/

namespace LastUse

open Relation (ReflTransGen TransGen)

/-! ## The search -/

/-- An edge of a list leads from a vertex to another. -/
def Connects (edges : List (Vertex × Vertex)) (u v : Vertex) : Prop := (u, v) ∈ edges

variable {edges : List (Vertex × Vertex)} {u v w : Vertex}

/-- The edges that do not begin at a vertex connect what they connected, but for that vertex. -/
theorem connects_elsewhere :
    Connects (edgesElsewhere edges v) u w ↔ Connects edges u w ∧ u ≠ v := by
  simp [Connects, edgesElsewhere]

/-- The edges from a vertex lead to what it is connected with. -/
theorem mem_targets_edgesFrom : w ∈ (edgesFrom edges v).map (·.2) ↔ Connects edges v w := by
  simp [Connects, edgesFrom]

/-- A path either avoids the edges from a vertex or can be cut where it leaves that vertex last. -/
theorem path_elsewhere (h : ReflTransGen (Connects edges) u w) :
    ReflTransGen (Connects (edgesElsewhere edges v)) u w ∨ w = v ∨
      ∃ t, Connects edges v t ∧ ReflTransGen (Connects (edgesElsewhere edges v)) t w := by
  induction h using ReflTransGen.head_induction_on with
  | refl => exact .inl .refl
  | @head a b hab _ ih =>
    by_cases ha : a = v
    · subst ha
      rcases ih with ih | ih
      · exact .inr (.inr ⟨b, hab, ih⟩)
      · exact .inr ih
    · exact ih.imp_left (.head (connects_elsewhere.2 ⟨hab, ha⟩))

/-- With as many rounds as there are edges and vertices on the stack, a search finds exactly what a
path leads to from the stack. -/
theorem mem_search {rounds : Nat} {stack : List Vertex}
    (hr : edges.length + stack.length ≤ rounds) :
    w ∈ search rounds edges stack ↔ ∃ u ∈ stack, ReflTransGen (Connects edges) u w := by
  fun_induction search rounds edges stack with
  | case1 edges stack =>
    have : stack = [] := List.length_eq_zero_iff.1 (by omega)
    simp [this]
  | case2 => simp
  | case3 rounds edges v stack ih =>
    have hlen := length_edges edges v
    rw [List.length_cons] at hr
    rw [List.mem_cons, ih (by rw [List.length_append, List.length_map]; omega)]
    simp only [List.mem_append, mem_targets_edgesFrom]
    have mono : ∀ {t}, ReflTransGen (Connects (edgesElsewhere edges v)) t w →
        ReflTransGen (Connects edges) t w := by
      refine fun hp => ReflTransGen.mono (fun a b h => ?_) _ _ hp
      exact (connects_elsewhere.1 h).1
    constructor
    · rintro (rfl | ⟨t, ht | ht, hp⟩)
      · exact ⟨w, List.mem_cons_self, .refl⟩
      · exact ⟨v, List.mem_cons_self, .head ht (mono hp)⟩
      · exact ⟨t, List.mem_cons_of_mem _ ht, mono hp⟩
    · rintro ⟨u, hu, hp⟩
      rcases path_elsewhere (v := v) hp with hp' | rfl | ⟨t, ht, hp'⟩
      · rcases List.mem_cons.1 hu with rfl | hu
        · rcases ReflTransGen.cases_head hp' with rfl | ⟨t, ht, -⟩
          · exact .inl rfl
          · exact absurd rfl (connects_elsewhere.1 ht).2
        · exact .inr ⟨u, .inr hu, hp'⟩
      · exact .inl rfl
      · exact .inr ⟨t, .inl ht, hp'⟩

/-- The search finds what a path leads to, but for where it began. -/
theorem mem_reachable :
    w ∈ reachable edges v ↔ w ≠ v ∧ ReflTransGen (Connects edges) v w := by
  simp [reachable, mem_search, and_comm]

namespace FlowGraph

variable {g : FlowGraph}

/-- An edge leads from a vertex to another. -/
def Leads (g : FlowGraph) (u v : Vertex) : Prop := ∃ e ∈ g.edges, e.source = u ∧ e.target = v

instance : DecidableRel g.Leads := fun _ _ => inferInstanceAs (Decidable (∃ _ ∈ _, _))

/-- A sequence of vertices along the edges. -/
def IsPath (g : FlowGraph) (vs : List Vertex) : Prop := vs.IsChain g.Leads

instance {vs : List Vertex} : Decidable (g.IsPath vs) :=
  inferInstanceAs (Decidable (vs.IsChain g.Leads))

/-- The descendants of a vertex are what a path leads to from it. -/
theorem mem_descendants : w ∈ g.descendants v ↔ w ≠ v ∧ TransGen g.Leads v w := by
  have hl : Connects (g.edges.map fun e => (e.source, e.target)) = g.Leads := by
    funext u w
    simp [Connects, Leads]
  rw [descendants, mem_reachable, hl, Relation.reflTransGen_iff_eq_or_transGen]
  constructor
  · rintro ⟨hne, rfl | hp⟩
    · exact absurd rfl hne
    · exact ⟨hne, hp⟩
  · rintro ⟨hne, hp⟩
    exact ⟨hne, .inr hp⟩

/-- The ancestors of a vertex are those from which a path leads to it. -/
theorem mem_ancestors : w ∈ g.ancestors v ↔ w ≠ v ∧ ReflTransGen g.Leads w v := by
  have hl : Connects (g.edges.map fun e => (e.target, e.source)) = Function.swap g.Leads := by
    funext u w
    simp [Connects, Leads, Function.swap, and_comm]
  rw [ancestors, mem_reachable, hl, Relation.reflTransGen_swap]

/-- A span has the ordinals from the first to the last. -/
theorem mem_span {first last o : Nat} : o ∈ span first last ↔ first ≤ o ∧ o ≤ last := by
  simp only [span, List.mem_map, List.mem_range]
  constructor
  · rintro ⟨i, hi, rfl⟩
    omega
  · rintro ⟨hf, hl⟩
    exact ⟨o - first, by omega, by omega⟩

/-- A jump back runs again every site that it goes over and from which control gets to it. -/
theorem mem_repeated {precise : Bool} {j : Jump} {o : Nat} (hj : j ∈ g.jumps)
    (hlen : o < g.sites.length) (hl : j.target ≤ o) (hu : o ≤ j.source)
    (hp : ReflTransGen g.Leads (.site o) (.site j.source)) : o ∈ g.repeated precise := by
  have ho : o ∈ g.repeatedBy precise j := by
    have hback : j.goesBack = true := by
      rw [Jump.goesBack, decide_eq_true_eq]
      omega
    have hspan : o ∈ span j.target j.source := mem_span.2 ⟨hl, hu⟩
    cases precise with
    | false => simpa [repeatedBy, hback] using hspan
    | true =>
      by_cases hne : o = j.source
      · simpa [repeatedBy, hback, hne] using hne ▸ hspan
      · have : .site o ∈ g.ancestors (.site j.source) :=
          mem_ancestors.2 ⟨fun h => hne (by cases h; rfl), hp⟩
        simp [repeatedBy, hback, hspan, this]
  simp only [repeated, List.mem_filter, List.mem_range, List.contains_iff_mem, List.mem_flatMap]
  exact ⟨hlen, j, hj, ho⟩

/-! ## Cycles -/

namespace Laid

variable {c d o : Nat}

/-- From a `return` control goes ahead in that `return` or leaves the function. -/
theorem leads_of_inReturn (h : g.Laid) (ho : g.marks.inReturn o = true)
    (hl : g.Leads (.site o) v) :
    v = .exit ∨ ∃ t, v = .site t ∧ o < t ∧ g.marks.inReturn t = true := by
  obtain ⟨e, he, hs, rfl⟩ := hl
  rcases h.edges e he with he | ⟨j, hj, rfl⟩
  · cases he with
    | enter => cases hs
    | leave => exact .inl rfl
    | ahead huv hr =>
      cases hs
      exact .inr ⟨_, rfl, huv, hr ho⟩
    | back _ _ hr =>
      cases hs
      rw [ho] at hr
      cases hr
  · cases hs
    rw [(h.jumps j hj).2.2] at ho
    cases ho

/-- No edge begins at the exit. -/
theorem not_leads_exit (h : g.Laid) : ¬ g.Leads .exit v := by
  rintro ⟨e, he, hs, rfl⟩
  rcases h.edges e he with he | ⟨j, hj, rfl⟩
  · cases he with
    | leave hne => exact hne hs
    | enter | ahead | back => cases hs
  · cases hs

/-- No edge ends at the start. -/
theorem not_leads_start (h : g.Laid) : ¬ g.Leads v .start := by
  rintro ⟨e, he, rfl, ht⟩
  rcases h.edges e he with he | ⟨j, hj, rfl⟩
  · cases he <;> cases ht
  · cases ht

/-- What is inside of a path is a site. -/
theorem exists_ordinal (h : g.Laid) (hp : TransGen g.Leads u v) (hl : g.Leads v w) :
    ∃ a, v = .site a := by
  cases v with
  | start =>
    obtain ⟨t, -, ht⟩ := TransGen.tail'_iff.1 hp
    exact absurd ht h.not_leads_start
  | exit => exact absurd hl h.not_leads_exit
  | site a => exact ⟨a, rfl⟩

/-- A path from a `return` goes ahead in that `return` or leaves the function. -/
theorem ahead_of_inReturn (h : g.Laid) (ho : g.marks.inReturn o = true)
    (hp : TransGen g.Leads (.site o) v) :
    v = .exit ∨ ∃ t, v = .site t ∧ o < t ∧ g.marks.inReturn t = true := by
  induction hp with
  | single hl => exact h.leads_of_inReturn ho hl
  | tail _ hl ih =>
    rcases ih with rfl | ⟨t, rfl, hot, ht⟩
    · exact absurd hl h.not_leads_exit
    · rcases h.leads_of_inReturn ht hl with rfl | ⟨t', rfl, htt', ht'⟩
      · exact .inl rfl
      · exact .inr ⟨t', rfl, by omega, ht'⟩

/-- A path that does not end behind the site where it begins has an edge that goes back over that
site. -/
theorem exists_back_over (h : g.Laid) (hp : TransGen g.Leads (.site c) (.site d)) (hdc : d ≤ c) :
    ∃ a b, ReflTransGen g.Leads (.site c) (.site a) ∧ g.Leads (.site a) (.site b) ∧ b ≤ c ∧
      c ≤ a := by
  generalize hv : Vertex.site d = v at hp
  induction hp generalizing d with
  | single hl =>
    subst hv
    exact ⟨c, d, .refl, hl, hdc, Nat.le_refl c⟩
  | tail hp hl ih =>
    subst hv
    obtain ⟨a, rfl⟩ := h.exists_ordinal hp hl
    -- The first vertex that is not behind `c` is entered by the edge in question.
    by_cases hac : a < c
    · exact ih (Nat.le_of_lt hac) rfl
    · exact ⟨a, d, hp.to_reflTransGen, hl, hdc, by omega⟩

/-- An edge that goes back over a site closes a loop around it or is that of a jump. -/
theorem inLoop_or_jump (h : g.Laid) {a b : Nat} (hab : g.Leads (.site a) (.site b)) (hbc : b ≤ c)
    (hca : c ≤ a) : g.marks.inLoop c = true ∨ ∃ j ∈ g.jumps, j.source = a ∧ j.target = b := by
  obtain ⟨e, he, hs, ht⟩ := hab
  rcases h.edges e he with he | ⟨j, hj, rfl⟩
  · cases he with
    | enter => cases hs
    | leave => cases ht
    | ahead huv =>
      cases hs
      cases ht
      omega
    | back _ hin =>
      cases hs
      cases ht
      exact .inl (hin c hbc hca)
  · cases hs
    cases ht
    exact .inr ⟨j, hj, rfl, rfl⟩

/-- A site that control can come back to stands in a loop or can be run again by a jump, and
belongs to no `return`. -/
theorem repeats_of_cycle (h : g.Laid) (precise : Bool) (hlen : c < g.sites.length)
    (hp : TransGen g.Leads (.site c) (.site c)) :
    (g.marks.inLoop c = true ∨ c ∈ g.repeated precise) ∧ g.marks.inReturn c = false := by
  constructor
  · obtain ⟨a, b, hca, hab, hbc, hac⟩ := h.exists_back_over hp (Nat.le_refl c)
    refine (h.inLoop_or_jump hab hbc hac).imp_right ?_
    rintro ⟨j, hj, rfl, rfl⟩
    exact mem_repeated hj hlen hbc hac hca
  · rw [← Bool.not_eq_true]
    intro hr
    rcases h.ahead_of_inReturn hr hp with hc | ⟨t, hc, hlt, -⟩
    · cases hc
    · cases hc
      omega

end Laid

/-- Every site on a cycle stands in a loop or is among those that a jump can run again, and no site
of a `return` is on a cycle. -/
theorem covered_of_cycle {exitEdges : Except Fault Bool} {tree : Value}
    (h : ofTree exitEdges tree = .ok g) {s : Site} (hs : s ∈ g.sites)
    (hp : TransGen g.Leads (.site s.ordinal) (.site s.ordinal)) :
    (s.inLoop = true ∨ s.ordinal ∈ g.repeated true) ∧ s.inReturn = false := by
  have hg := laid_of_ofTree h
  obtain ⟨hlen, -⟩ := List.getElem?_eq_some_iff.1 (getElem?_ordinal hg.sites hs)
  obtain ⟨hl, hr⟩ := marks_of_sites hg.sites s hs
  have hc := hg.repeats_of_cycle true hlen hp
  rwa [hl, hr] at hc

end FlowGraph

namespace Sample

/-- A jump into the body of a loop, from which another jump goes back to before the loop. -/
def jumpsAround : Value :=
  function [.node .labeled [.str "top", ifElse "c" (.node .goto [.str "inside"]) .null],
    whileLoop "d" [.node .labeled [.str "inside", use "x"],
      ifElse "c" (.node .goto [.str "top"]) .null],
    ret "x"]

/-- The cycle through the first jump enters the loop sideways and leaves it by the second one,
which goes back over the first. -/
theorem covered_jumpsAround :
    FlowGraph.ofTree (.ok true) jumpsAround = .ok (graph jumpsAround) ∧
      ∃ s ∈ (graph jumpsAround).sites, s.ordinal = 2 ∧ s.inLoop = false ∧
        TransGen (graph jumpsAround).Leads (.site s.ordinal) (.site s.ordinal) ∧
        (s.inLoop = true ∨ s.ordinal ∈ (graph jumpsAround).repeated true) ∧
          s.inReturn = false := by
  have h : FlowGraph.ofTree (.ok true) jumpsAround = .ok (graph jumpsAround) :=
    ofTree_eq (by decide +kernel)
  obtain ⟨s, hs, ho, hl⟩ : ∃ s ∈ (graph jumpsAround).sites, s.ordinal = 2 ∧ s.inLoop = false := by
    decide +kernel
  have hfirst : (graph jumpsAround).Leads (.site 2) (.site 4) := by decide +kernel
  have hrest : (graph jumpsAround).IsPath ([4, 5, 6, 7, 0, 1, 2].map .site) := by decide +kernel
  have hp : TransGen (graph jumpsAround).Leads (.site s.ordinal) (.site s.ordinal) := by
    rw [ho]
    exact .head' hfirst (List.relationReflTransGen_of_exists_isChain_cons _ hrest rfl)
  exact ⟨h, s, hs, ho, hl, hp, FlowGraph.covered_of_cycle h hs hp⟩

end Sample

end LastUse
