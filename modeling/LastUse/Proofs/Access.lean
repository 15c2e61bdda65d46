import LastUse.Access
import LastUse.Proofs.Flow.Layout

/-!
# What a scan finds

A scan holds what the sites of a flow graph do to a binding: `FlowGraph.scan_access` gives the
record of each site, and the lemmas after it say what its fields tell of the expressions evaluated
there.
-/

namespace LastUse

/-! ## The nodes of an expression -/

namespace Expr

variable {e n : Expr} {name : Value}

/-- Whether there is a node. -/
def isNode (e : Expr) : Bool := e.place?.isSome

/-- The nodes of two lists of expressions are those of the first, then those of the second. -/
theorem nodesAll_append (a b : List Expr) : nodesAll (a ++ b) = nodesAll a ++ nodesAll b := by
  induction a with
  | nil => rfl
  | cons e rest ih => simp [nodesAll, ih]

/-- The nodes of several expressions are those of each, one after the other. -/
theorem nodesAll_eq_flatMap (es : List Expr) : nodesAll es = es.flatMap nodes := by
  induction es with
  | nil => rfl
  | cons e rest ih => rw [nodesAll, ih, List.flatMap_cons]

/-- A node of several expressions is a node of one of them. -/
theorem mem_nodesAll {es : List Expr} : n ∈ nodesAll es ↔ ∃ e ∈ es, n ∈ e.nodes := by
  induction es with
  | nil => simp [nodesAll]
  | cons e rest ih => simp [nodesAll, ih]

/-- A node comes before the nodes of its parts. -/
theorem nodes_of_isNode (h : e.isNode = true) : e.nodes = e :: nodesAll e.parts := by
  cases e <;> simp_all [isNode, place?, nodes, nodesAll, parts]

/-- What is no node has none. -/
theorem nodes_of_not_isNode (h : e.isNode = false) : e.nodes = [] := by
  cases e <;> simp_all [isNode, place?, nodes]

/-- The sizes of two lists of expressions add up. -/
theorem sizes_append (a b : List Expr) : sizes (a ++ b) = sizes a + sizes b := by
  induction a with
  | nil => simp [sizes]
  | cons e rest ih => simp [sizes, ih, Nat.add_assoc]

/-- An expression is no larger than a list that holds it. -/
theorem size_le_sizes {es : List Expr} (h : e ∈ es) : e.size ≤ sizes es := by
  induction es with
  | nil => simp at h
  | cons x rest ih =>
    rw [sizes]
    rcases List.mem_cons.1 h with rfl | h
    · omega
    · have := ih h
      omega

/-- An expression is larger than its parts by one. -/
theorem size_eq (e : Expr) : e.size = sizes e.parts + 1 := by
  cases e <;> simp [size, parts, sizes, Nat.add_assoc]

/-- The walk with a stack finds the nodes in the order in which recursion does. -/
theorem preorderOf_eq {rounds : Nat} {stack : List Expr} (h : sizes stack ≤ rounds) :
    preorderOf rounds stack = nodesAll stack := by
  induction rounds generalizing stack with
  | zero =>
    cases stack with
    | nil => rfl
    | cons e rest =>
      rw [sizes, size_eq] at h
      omega
  | succ rounds ih =>
    cases stack with
    | nil => rfl
    | cons e rest =>
      rw [sizes, size_eq] at h
      have hparts : preorderOf rounds (e.parts ++ rest) = nodesAll (e.parts ++ rest) :=
        ih (by rw [sizes_append]; omega)
      rw [nodesAll_append] at hparts
      cases hn : e.isNode with
      | false =>
        have hrest : preorderOf rounds rest = nodesAll rest := ih (by omega)
        cases e <;> simp_all [isNode, place?, preorderOf, nodesAll, nodes]
      | true =>
        rw [nodesAll, nodes_of_isNode hn, List.cons_append, ← hparts]
        cases e <;> simp_all [isNode, place?, preorderOf]

/-- The nodes that are visited one after the other are all nodes, in order. -/
theorem preorder_eq_nodes (e : Expr) : e.preorder = e.nodes := by
  rw [preorder, preorderOf_eq (by simp [sizes]), nodesAll, nodesAll, List.append_nil]

/-- The root of an expression is the name of a node in it. -/
theorem exists_name_of_root (h : e.root ≠ .null) : ∃ p, .name p e.root ∈ e.nodes := by
  fun_induction root e with
  | case1 p id => exact ⟨p, by simp [nodes]⟩
  | case2 p base f ih =>
    obtain ⟨q, hq⟩ := ih h
    exact ⟨q, by simp [nodes, hq]⟩
  | case3 p base i ih =>
    obtain ⟨q, hq⟩ := ih h
    exact ⟨q, by simp [nodes, hq]⟩
  | case4 => exact absurd rfl h

/-- Null is the same as nothing else. -/
theorem eq_null_of_same {v : Value} (h : Value.null.same v = true) : v = .null := by
  cases v with
  | scalar s =>
    simp only [Value.same, Scalar.same, Scalar.dyadic?] at h
    split at h
    · simp_all
    · exact congrArg _ (of_decide_eq_true h).symm
    · cases h
  | list | node => simp [Value.same] at h

/-- An expression that takes the address of a name has the name in it. -/
theorem exists_isName_of_takesAddressOf (hname : name ≠ .null) (hn : n ∈ e.nodes)
    (ht : n.takesAddressOf name = true) : ∃ m ∈ e.nodes, m.isName name = true := by
  -- By induction on the number of nodes: the one that takes the address is `e` or in one of its
  -- parts.
  induction hk : e.size using Nat.strongRecOn generalizing e with
  | ind k ih =>
    cases he : e.isNode with
    | false => simp [nodes_of_not_isNode he] at hn
    | true =>
      rw [nodes_of_isNode he] at hn ⊢
      rcases List.mem_cons.1 hn with rfl | hn
      · cases n with
        | addressOf p operand =>
          simp only [takesAddressOf] at ht
          have hroot : operand.root ≠ .null := by
            intro h
            rw [h] at ht
            exact hname (eq_null_of_same ht)
          obtain ⟨q, hq⟩ := exists_name_of_root hroot
          exact ⟨.name q operand.root, by simp [parts, nodesAll, hq], ht⟩
        | _ => simp [takesAddressOf] at ht
      · obtain ⟨part, hpart, hn⟩ := mem_nodesAll.1 hn
        have hlt : part.size < k := by
          have := size_le_sizes hpart
          rw [size_eq] at hk
          omega
        obtain ⟨m, hm, hname⟩ := ih _ hlt hn rfl
        exact ⟨m, List.mem_cons_of_mem _ (mem_nodesAll.2 ⟨part, hpart, hm⟩), hname⟩

end Expr

/-! ## Scans -/

/-- The access of a site that does not touch a name is the empty one. -/
theorem Site.access_eq_none {s : Site} {name : Value} (h : (s.access name).touches = false) :
    s.access name = .none s.ordinal := by
  simp only [Site.access, Access.touches, Bool.or_eq_false_iff] at h
  simp only [Site.access, Access.none, h, Bool.false_and]

namespace FlowGraph

variable {g : FlowGraph} {b : Binding} {o : Nat}

/-- A node with a property occurs in an expression that is evaluated at a site. -/
def Evaluates (g : FlowGraph) (p : Expr → Bool) (o : Nat) : Prop :=
  ∃ s ∈ g.sites, s.ordinal = o ∧ ∃ e ∈ s.exprs, ∃ n ∈ e.preorder, p n = true

instance {p : Expr → Bool} : Decidable (g.Evaluates p o) :=
  inferInstanceAs (Decidable (∃ _ ∈ _, _))

/-- A site accesses a binding. -/
def Accesses (g : FlowGraph) (b : Binding) : Nat → Prop := g.Evaluates (Expr.isName b.name)

/-- A site takes the address of a binding. -/
def TakesAddress (g : FlowGraph) (b : Binding) : Nat → Prop :=
  g.Evaluates (Expr.takesAddressOf b.name)

/-- A site moves a binding. -/
def Resets (g : FlowGraph) (b : Binding) : Nat → Prop := g.Evaluates (Expr.moves b.name)

instance : Decidable (g.Accesses b o) := inferInstanceAs (Decidable (g.Evaluates _ _))

instance : Decidable (g.TakesAddress b o) := inferInstanceAs (Decidable (g.Evaluates _ _))

instance : Decidable (g.Resets b o) := inferInstanceAs (Decidable (g.Evaluates _ _))

namespace Laid

/-- The sites of a graph differ in their ordinals. -/
theorem eq_of_ordinal (h : g.Laid) {s t : Site} (hs : s ∈ g.sites) (ht : t ∈ g.sites)
    (he : s.ordinal = t.ordinal) : s = t := by
  have hs := getElem?_ordinal h.sites hs
  have ht := getElem?_ordinal h.sites ht
  rw [he, ht, Option.some.injEq] at hs
  exact hs.symm

/-- The ordinal of a site is below their number. -/
theorem ordinal_lt (h : g.Laid) {s : Site} (hs : s ∈ g.sites) : s.ordinal < g.sites.length := by
  obtain ⟨hlt, -⟩ := List.getElem?_eq_some_iff.1 (getElem?_ordinal h.sites hs)
  exact hlt

/-- What is evaluated somewhere is evaluated at a site. -/
theorem lt_of_evaluates (h : g.Laid) {p : Expr → Bool} (he : g.Evaluates p o) :
    o < g.sites.length := by
  obtain ⟨s, hs, rfl, -⟩ := he
  exact h.ordinal_lt hs

/-- A scan holds the access of every site. -/
theorem scan_access (h : g.Laid) {s : Site} (hs : s ∈ g.sites) :
    (g.scan b).access s.ordinal = s.access b.name := by
  rw [Scan.access]
  cases hf : (g.scan b).records.find? fun a => a.ordinal = s.ordinal with
  | none =>
    have hnone := List.find?_eq_none.1 hf
    refine (Site.access_eq_none ?_).symm
    rw [← Bool.not_eq_true]
    intro ht
    have hm : s.access b.name ∈ (g.scan b).records :=
      List.mem_filter.2 ⟨List.mem_map.2 ⟨s, hs, rfl⟩, ht⟩
    exact hnone _ hm (by simp [Site.access])
  | some a =>
    have ho : a.ordinal = s.ordinal := by simpa using List.find?_some hf
    obtain ⟨t, ht, rfl⟩ := List.mem_map.1 (List.mem_filter.1 (List.mem_of_find?_eq_some hf)).1
    rw [h.eq_of_ordinal ht hs ho, Option.getD_some]

/-- A scan holds nothing but what sites do. -/
theorem exists_site_of_access (h : (g.scan b).access o ≠ .none o) :
    ∃ s ∈ g.sites, s.ordinal = o := by
  rw [Scan.access] at h
  cases hf : (g.scan b).records.find? fun a => a.ordinal = o with
  | none =>
    rw [hf] at h
    exact absurd rfl h
  | some a =>
    obtain ⟨s, hs, rfl⟩ := List.mem_map.1 (List.mem_filter.1 (List.mem_of_find?_eq_some hf)).1
    have ho := List.find?_some hf
    rw [decide_eq_true_eq] at ho
    exact ⟨s, hs, ho⟩

/-- What a field of the records in a scan tells. -/
theorem scan_field (h : g.Laid) {field : Access → Bool} {p : Expr → Bool}
    (hnone : field (.none o) = false)
    (hfield : ∀ s : Site, field (s.access b.name) = true ↔ ∃ e ∈ s.exprs, ∃ n ∈ e.preorder,
      p n = true) : field ((g.scan b).access o) = true ↔ g.Evaluates p o := by
  constructor
  · intro ha
    obtain ⟨s, hs, rfl⟩ := exists_site_of_access fun he => by
      rw [he, hnone] at ha
      cases ha
    rw [h.scan_access hs] at ha
    exact ⟨s, hs, rfl, (hfield s).1 ha⟩
  · rintro ⟨s, hs, rfl, he⟩
    rw [h.scan_access hs]
    exact (hfield s).2 he

/-- The record of a site tells whether an access to the binding is evaluated there. -/
theorem scan_accesses (h : g.Laid) :
    ((g.scan b).access o).accesses = true ↔ g.Accesses b o :=
  h.scan_field rfl fun s => by simp [Site.access, Expr.touch]

/-- The record of a site tells whether the address of the binding is taken there. -/
theorem scan_addressOf (h : g.Laid) :
    ((g.scan b).access o).addressOf = true ↔ g.TakesAddress b o :=
  h.scan_field rfl fun s => by simp [Site.access, Expr.touch]

/-- The record of a site tells whether the binding is moved there. -/
theorem scan_resets (h : g.Laid) : ((g.scan b).access o).resets = true ↔ g.Resets b o :=
  h.scan_field rfl fun s => by simp [Site.access, Expr.touch]

/-- A record is in a `return` if its site is. -/
theorem scan_inReturn (h : g.Laid) (ha : g.Accesses b o) :
    ((g.scan b).access o).inReturn = g.marks.inReturn o := by
  obtain ⟨s, hs, rfl, he⟩ := ha
  have hacc : (s.access b.name).accesses = true := by
    rw [← h.scan_access hs]
    exact h.scan_accesses.2 ⟨s, hs, rfl, he⟩
  have hr : (s.access b.name).inReturn = ((s.access b.name).accesses && s.inReturn) := rfl
  rw [h.scan_access hs, hr, hacc, Bool.true_and, (marks_of_sites h.sites s hs).2]

/-- The accessing sites of a scan are those that access the binding. -/
theorem mem_accessing (h : g.Laid) : o ∈ (g.scan b).accessing ↔ g.Accesses b o := by
  constructor
  · intro ho
    obtain ⟨a, ha, rfl⟩ := List.mem_map.1 ho
    obtain ⟨ha, hacc⟩ := List.mem_filter.1 ha
    obtain ⟨s, hs, rfl⟩ := List.mem_map.1 (List.mem_filter.1 ha).1
    rw [← h.scan_accesses, show (s.access b.name).ordinal = s.ordinal from rfl, h.scan_access hs]
    exact hacc
  · rintro ⟨s, hs, rfl, he⟩
    have hacc : (s.access b.name).accesses = true := by
      rw [← h.scan_access hs]
      exact h.scan_accesses.2 ⟨s, hs, rfl, he⟩
    refine List.mem_map.2 ⟨s.access b.name, List.mem_filter.2 ⟨List.mem_filter.2 ⟨?_, ?_⟩, hacc⟩,
      rfl⟩
    · exact List.mem_map.2 ⟨s, hs, rfl⟩
    · simp [Access.touches, hacc]

end Laid

/-- A site that takes the address of a binding accesses it. -/
theorem TakesAddress.accesses (hb : b.name ≠ .null) (h : g.TakesAddress b o) : g.Accesses b o := by
  obtain ⟨s, hs, ho, e, he, n, hn, ht⟩ := h
  rw [Expr.preorder_eq_nodes] at hn
  obtain ⟨m, hm, hname⟩ := Expr.exists_isName_of_takesAddressOf hb hn ht
  exact ⟨s, hs, ho, e, he, m, (Expr.preorder_eq_nodes e).symm ▸ hm, hname⟩

end FlowGraph

end LastUse
