import LastUse.Proofs.Access
import LastUse.Proofs.Sample

/-!
# Walks through expressions

The walk through an expression keeps a stack of what is still to be visited. It finds the nodes in
the order in which recursion does, and so what it says of a name can be read off the nodes:
`Expr.walk_eq_recursion`. The name that an expression is rooted in is what is left of it when all
members and items are stripped (`Expr.root_eq_iff`).
-/

namespace LastUse

/-- A value is equal to a text only if it is that text. -/
theorem Value.same_str_iff {v : Value} {x : String} : v.same (.str x) = true ↔ v = .str x := by
  constructor
  · intro h
    cases v with
    | scalar s =>
      rw [same] at h
      cases s with
      | str s =>
        obtain rfl := Scalar.str.inj (of_decide_eq_true h)
        rfl
      | float y =>
        unfold Scalar.same at h
        cases hy : (Scalar.float y).dyadic? <;> rw [hy] at h <;> cases y <;> cases h
      | _ => cases h
    | list | node => cases h
  · rintro rfl
    exact decide_eq_true rfl

namespace Expr

/-- One expression is left of another when some members and items are stripped from it. -/
inductive Strips : Expr → Expr → Prop
  | done {e : Expr} : Strips e e
  | member {p : Path} {base e : Expr} {field : Value} : Strips base e →
      Strips (.member p base field) e
  | index {p : Path} {base position e : Expr} : Strips base e → Strips (.index p base position) e

mutual

/-- Whether a tree has expressions for its nodes. Any part of it may be missing. -/
def formed : Expr → Bool
  | .absent | .name .. | .literal .. => true
  | .stray _ | .unlisted | .foreign .. => false
  | .call _ _ args => allFormed args
  | .unary _ _ e | .addressOf _ e | .move _ e | .member _ e _ => e.formed
  | .binary _ _ l r | .assign _ _ l r | .index _ l r | .logic _ _ l r => l.formed && r.formed

/-- Whether several trees have expressions for their nodes. -/
def allFormed : List Expr → Bool
  | [] => true
  | e :: rest => e.formed && allFormed rest

end

variable {e n : Expr} {x : String}

mutual

/-- A walk through a tree of expressions meets no fault. -/
theorem flaw?_of_formed : ∀ {e : Expr}, e.formed = true → e.flaw? = none
  | .absent, _ | .name .., _ | .literal .., _ => rfl
  | .stray _, h | .unlisted, h | .foreign .., h => by cases h
  | .call _ _ args, h => by
    rw [flaw?]
    exact flawAmong?_of_formed h
  | .unary _ _ e, h | .addressOf _ e, h | .move _ e, h | .member _ e _, h => by
    rw [flaw?]
    exact flaw?_of_formed h
  | .binary _ _ l r, h | .assign _ _ l r, h | .index _ l r, h | .logic _ _ l r, h => by
    rw [formed, Bool.and_eq_true] at h
    rw [flaw?, flaw?_of_formed h.1, flaw?_of_formed h.2]
    rfl

/-- There is no flaw among expressions that are formed. -/
theorem flawAmong?_of_formed : ∀ {es : List Expr}, allFormed es = true → flawAmong? es = none
  | [], _ => rfl
  | e :: rest, h => by
    rw [allFormed, Bool.and_eq_true] at h
    rw [flawAmong?, flaw?_of_formed h.1, flawAmong?_of_formed h.2]
    rfl

end

/-- An expression is rooted in a name if that is left when all members and items are stripped. -/
theorem root_eq_iff : e.root = .str x ↔ ∃ p, e.Strips (.name p (.str x)) := by
  constructor
  · intro h
    fun_induction root e with
    | case1 p id => exact ⟨p, h ▸ .done⟩
    | case2 p base field ih =>
      obtain ⟨q, hq⟩ := ih h
      exact ⟨q, .member hq⟩
    | case3 p base position ih =>
      obtain ⟨q, hq⟩ := ih h
      exact ⟨q, .index hq⟩
    | case4 => cases h
  · rintro ⟨p, h⟩
    generalize hn : Expr.name p (.str x) = n at h
    induction h with
    | done =>
      subst hn
      rfl
    | member _ ih | index _ ih => exact ih hn

/-- What the walk looks for is among the nodes. -/
theorem any_preorder {found : Expr → Bool} :
    e.preorder.any found = true ↔ ∃ n ∈ e.nodes, found n = true := by
  rw [preorder_eq_nodes, List.any_eq_true]

/-- The walk meets a name if the expression has a node with it. -/
theorem any_isName :
    e.preorder.any (isName (.str x)) = true ↔ ∃ p, .name p (.str x) ∈ e.nodes := by
  rw [any_preorder]
  constructor
  · rintro ⟨n, hn, hname⟩
    cases n with
    | name p id =>
      obtain rfl := Value.same_str_iff.1 hname
      exact ⟨p, hn⟩
    | _ => cases hname
  · rintro ⟨p, hp⟩
    exact ⟨_, hp, Value.same_str_iff.2 rfl⟩

/-- A walk that looks for nodes with an operand that is rooted in a name finds them. -/
theorem any_rooted {found : Expr → Bool} {make : Path → Expr → Expr}
    (hmake : ∀ p operand, found (make p operand) = operand.root.same (.str x))
    (hfound : ∀ n, found n = true → ∃ p operand, n = make p operand) :
    e.preorder.any found = true ↔
      ∃ p operand, make p operand ∈ e.nodes ∧ ∃ q, operand.Strips (.name q (.str x)) := by
  simp only [any_preorder, ← root_eq_iff, ← Value.same_str_iff]
  constructor
  · rintro ⟨n, hn, h⟩
    obtain ⟨p, operand, rfl⟩ := hfound n h
    exact ⟨p, operand, hn, hmake p operand ▸ h⟩
  · rintro ⟨p, operand, hn, h⟩
    exact ⟨_, hn, hmake p operand ▸ h⟩

/-- A walk through a tree of expressions meets no fault, also if parts of the tree are missing. It
finds the nodes in the order of the recursion, each before its parts. A name is accessed if it
occurs, and its address is taken or it is moved if what is left of an operand without members and
items is the name. -/
theorem walk_eq_recursion (e : Expr) :
    (e.formed = true → e.flaw? = none) ∧ e.preorder = e.nodes ∧
      ∀ x : String,
        ((e.touch (.str x)).accesses = true ↔ ∃ p, .name p (.str x) ∈ e.nodes) ∧
        ((e.touch (.str x)).addressOf = true ↔
          ∃ p operand, .addressOf p operand ∈ e.nodes ∧ ∃ q, operand.Strips (.name q (.str x))) ∧
        ((e.touch (.str x)).resets = true ↔
          ∃ p operand, .move p operand ∈ e.nodes ∧ ∃ q, operand.Strips (.name q (.str x))) := by
  refine ⟨flaw?_of_formed, preorder_eq_nodes e,
    fun x => ⟨any_isName, any_rooted ?_ ?_, any_rooted ?_ ?_⟩⟩
  · intro p operand
    rfl
  · intro n h
    cases n with
    | addressOf p operand => exact ⟨p, operand, rfl⟩
    | _ => cases h
  · intro p operand
    rfl
  · intro n h
    cases n with
    | move p operand => exact ⟨p, operand, rfl⟩
    | _ => cases h

end Expr

namespace Sample

/-- A call that passes nothing at all, the address of a member of an item, and what is moved. -/
def lends : Expr :=
  .ofValue .root (.node .call [.str "f", .list [.null,
    .node .addressOf [.node .member [.node .index [name "x", name "i"], .str "a"]],
    .node .move [name "y"]]])

/-- The address that is taken is that of `x`, which is rooted two steps deeper, and not that of
`i`. -/
theorem walk_of_lends :
    lends.formed = true ∧ lends.flaw? = none ∧ lends.preorder = lends.nodes ∧
      (lends.touch (.str "x")).addressOf = true ∧ (lends.touch (.str "i")).accesses = true ∧
      (lends.touch (.str "i")).addressOf = false ∧ (lends.touch (.str "y")).resets = true := by
  have hformed : lends.formed = true := by decide +kernel
  obtain ⟨hflaw, hwalk, htouch⟩ := lends.walk_eq_recursion
  have haddress : .addressOf _ _ ∈ lends.nodes := List.mem_of_getElem? (i := 1) rfl
  have hitem : .name _ (.str "i") ∈ lends.nodes := List.mem_of_getElem? (i := 5) rfl
  have hmove : .move _ _ ∈ lends.nodes := List.mem_of_getElem? (i := 6) rfl
  exact ⟨hformed, hflaw hformed, hwalk,
    (htouch "x").2.1.2 ⟨_, _, haddress, _, .member (.index .done)⟩,
    (htouch "i").1.2 ⟨_, hitem⟩, by decide +kernel, (htouch "y").2.2.2 ⟨_, _, hmove, _, .done⟩⟩

end Sample

end LastUse
