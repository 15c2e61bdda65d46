import Mathlib.Data.List.Nodup
import LastUse.Tree.Value

/-!
# The nodes of a tree in the order of evaluation

`Value.evaluated` lists the nodes of a tree that are evaluated, each before those in its fields.
Fields come in the order in which they are declared, except that the step of a `for` loop comes
behind its body. The values of a case are not evaluated, and what a literal holds is no part of the
tree: the list has exactly the nodes outside of those fields (`Value.mem_evaluated`), each once, as
the places in the list are distinct (`Value.nodup_evaluated`).
-/

namespace LastUse

/-! ## Places below a place -/

namespace Path

/-- A place is another one or is below it. -/
def Under (p : Path) : Path → Prop
  | .root => p = .root
  | .field q name => p = .field q name ∨ p.Under q
  | .item q i => p = .item q i ∨ p.Under q

instance decidableUnder (p : Path) : DecidablePred p.Under
  | .root => inferInstanceAs (Decidable (p = .root))
  | .field q name =>
    have := p.decidableUnder q
    inferInstanceAs (Decidable (p = .field q name ∨ p.Under q))
  | .item q i =>
    have := p.decidableUnder q
    inferInstanceAs (Decidable (p = .item q i ∨ p.Under q))

/-- The number of steps from the root. -/
def depth : Path → Nat
  | .root => 0
  | .field p _ => p.depth + 1
  | .item p _ => p.depth + 1

variable {p p' q : Path} {name : String} {i : Nat}

/-- A place is at or below itself. -/
theorem Under.refl (p : Path) : p.Under p := by
  cases p with
  | root => rfl
  | field => exact .inl rfl
  | item => exact .inl rfl

/-- What is below a place that is below another is below that one. -/
theorem Under.trans (h : p.Under p') (h' : p'.Under q) : p.Under q := by
  induction q with
  | root =>
    cases show p' = .root from h'
    exact h
  | field q _ ih | item q _ ih =>
    rcases h' with rfl | h'
    · exact h
    · exact .inr (ih h')

/-- What is below a field of a place is below the place. -/
theorem Under.of_field (h : (p.field name).Under q) : p.Under q := by
  have hp : p.Under (p.field name) := .inr (.refl p)
  exact hp.trans h

/-- What is below an item of a place is below the place. -/
theorem Under.of_item (h : (p.item i).Under q) : p.Under q := by
  have hp : p.Under (p.item i) := .inr (.refl p)
  exact hp.trans h

/-- A place below another is no less deep. -/
theorem Under.depth_le (h : p.Under q) : p.depth ≤ q.depth := by
  induction q with
  | root =>
    cases show p = .root from h
    exact Nat.le_refl _
  | field q _ ih | item q _ ih =>
    rcases h with rfl | h
    · exact Nat.le_refl _
    · exact Nat.le_succ_of_le (ih h)

/-- A place is below only one place of each depth. -/
theorem Under.eq_of_depth (h : p.Under q) (h' : p'.Under q) (hd : p.depth = p'.depth) :
    p = p' := by
  induction q with
  | root => rw [show p = .root from h, show p' = .root from h']
  | field q _ ih | item q _ ih =>
    rcases h with rfl | h <;> rcases h' with rfl | h'
    · rfl
    · have hle := h'.depth_le
      rw [← hd, depth] at hle
      omega
    · have hle := h.depth_le
      rw [hd, depth] at hle
      omega
    · exact ih h h'

/-- Nothing is below two fields of a place. -/
theorem Under.field_inj {a b : String} (ha : (p.field a).Under q) (hb : (p.field b).Under q) :
    a = b := by
  cases ha.eq_of_depth hb rfl
  rfl

/-- Nothing is below two items of a place. -/
theorem Under.item_inj {i j : Nat} (hi : (p.item i).Under q) (hj : (p.item j).Under q) :
    i = j := by
  cases hi.eq_of_depth hj rfl
  rfl

/-- A place is not below its own fields. -/
theorem not_field_under : ¬ (p.field name).Under p := by
  intro h
  have hle := h.depth_le
  rw [depth] at hle
  omega

end Path

/-! ## Nodes in the order of evaluation -/

/-- Whether a field of a node is not evaluated: the values of a case and the value of a literal. -/
def Kind.skips : Kind → String → Bool
  | .caseArm, field => field = "values"
  | .literal, field => field = "value"
  | _, _ => false

/-- What belongs to the fields of a node in the order in which they are evaluated. -/
def Kind.evaluationOrder {α : Type} : Kind → List α → List α
  | .forLoop, [init, cond, step, body] => [init, cond, body, step]
  | _, fields => fields

/-- The order of evaluation only rearranges the fields. -/
theorem Kind.evaluationOrder_perm {α : Type} (k : Kind) (fields : List α) :
    (k.evaluationOrder fields).Perm fields := by
  unfold Kind.evaluationOrder
  split
  · exact .cons _ (.cons _ (.swap _ _ _))
  · exact .refl _

/-- The names of the fields of a kind are distinct. -/
theorem Kind.nodup_fields (k : Kind) : (k.fields.map (·.name)).Nodup := by
  cases k <;> decide

namespace Value

mutual

/-- The nodes of a value at a place that are evaluated, each with its own place, in the order of
evaluation. -/
def evaluated (p : Path) : Value → List (Path × Value)
  | .scalar _ => []
  | .list items => evaluatedItems p 0 items
  | .node k fields =>
    (p, .node k fields) :: (k.evaluationOrder (evaluatedFields p k k.fields fields)).flatten

/-- The evaluated nodes of the items of a list, from an index on. -/
def evaluatedItems (p : Path) (i : Nat) : List Value → List (Path × Value)
  | [] => []
  | v :: rest => v.evaluated (p.item i) ++ evaluatedItems p (i + 1) rest

/-- The evaluated nodes of each field of a node. -/
def evaluatedFields (p : Path) (k : Kind) :
    List FieldDecl → List Value → List (List (Path × Value))
  | f :: fs, v :: rest =>
    (if k.skips f.name then [] else v.evaluated (p.field f.name)) :: evaluatedFields p k fs rest
  | _, _ => []

end

/-! ## Which nodes are evaluated -/

mutual

/-- The nodes of a value are below its place. -/
theorem under_nodes : ∀ {v : Value} {p : Path} {n : Path × Value}, n ∈ v.nodes p → p.Under n.1
  | .scalar _, _, _, h => by simp [nodes] at h
  | .list items, p, n, h => by
    rw [nodes] at h
    obtain ⟨i, -, hi⟩ := under_itemNodes h
    exact hi.of_item
  | .node k fields, p, n, h => by
    rw [nodes, List.mem_cons] at h
    rcases h with rfl | h
    · exact .refl p
    · obtain ⟨f, -, hf⟩ := under_fieldNodes h
      exact hf.of_field

/-- The nodes in a list from an index on are below its items from there on. -/
theorem under_itemNodes : ∀ {items : List Value} {p : Path} {i : Nat} {n : Path × Value},
    n ∈ itemNodes p i items → ∃ j, i ≤ j ∧ (p.item j).Under n.1
  | [], _, _, _, h => by simp [itemNodes] at h
  | v :: rest, p, i, n, h => by
    rw [itemNodes, List.mem_append] at h
    rcases h with h | h
    · exact ⟨i, Nat.le_refl i, under_nodes h⟩
    · obtain ⟨j, hij, hj⟩ := under_itemNodes h
      exact ⟨j, Nat.le_of_succ_le hij, hj⟩

/-- The nodes in the fields of a node are below these fields. -/
theorem under_fieldNodes : ∀ {vs : List Value} {p : Path} {fs : List FieldDecl} {n : Path × Value},
    n ∈ fieldNodes p fs vs → ∃ f ∈ fs, (p.field f.name).Under n.1
  | [], _, fs, _, h => by cases fs <;> simp [fieldNodes] at h
  | _ :: _, _, [], _, h => by simp [fieldNodes] at h
  | v :: rest, p, f :: fs, n, h => by
    rw [fieldNodes, List.mem_append] at h
    rcases h with h | h
    · exact ⟨f, List.mem_cons_self, under_nodes h⟩
    · obtain ⟨x, hx, hu⟩ := under_fieldNodes h
      exact ⟨x, List.mem_cons_of_mem _ hx, hu⟩

end

/-- A place is in a field of a node that is not evaluated. -/
def Omits (m : Path × Value) (q : Path) : Prop :=
  ∃ k fields field, m.2 = .node k fields ∧ k.skips field = true ∧ (m.1.field field).Under q

variable {m n : Path × Value} {p q : Path}

/-- What a node omits is below it. -/
theorem Omits.under (h : Omits m q) : m.1.Under q := by
  obtain ⟨k, fields, field, -, -, hu⟩ := h
  exact hu.of_field

/-- A node below one place omits nothing elsewhere. -/
theorem not_omits (hm : p.Under m.1) (hq : ¬ p.Under q) : ¬ Omits m q :=
  fun h => hq (hm.trans h.under)

/-- A node omits no place that it is below of itself. -/
theorem not_omits_above (hm : q.Under m.1) : ¬ Omits m q := by
  rintro ⟨k, fields, field, -, -, hu⟩
  have hle := hu.depth_le
  have := hm.depth_le
  rw [Path.depth] at hle
  omega

mutual

/-- The evaluated nodes of a value are those that no node of it omits. -/
theorem mem_evaluated : ∀ {v : Value} {p : Path},
    n ∈ v.evaluated p ↔ n ∈ v.nodes p ∧ ∀ m ∈ v.nodes p, ¬ Omits m n.1
  | .scalar _, _ => by simp [evaluated, nodes]
  | .list items, p => by
    rw [evaluated, nodes]
    exact mem_evaluatedItems
  | .node k fields, p => by
    rw [evaluated, nodes, List.mem_cons, List.mem_cons, (k.evaluationOrder_perm _).flatten.mem_iff,
      mem_evaluatedFields k.nodup_fields]
    constructor
    · rintro (rfl | ⟨hn, hskip, ho⟩)
      · exact ⟨.inl rfl, fun m hm => not_omits_above
          (under_nodes (v := .node k fields) (by rwa [nodes]))⟩
      · refine ⟨.inr hn, fun m hm => ?_⟩
        rcases List.mem_cons.1 hm with rfl | hm
        · rintro ⟨_, _, field, heq, hf, hu⟩
          cases heq
          exact hskip field hf hu
        · exact ho m hm
    · rintro ⟨rfl | hn, ho⟩
      · exact .inl rfl
      · refine .inr ⟨hn, fun field hf hu => ?_, fun m hm => ho m (List.mem_cons_of_mem _ hm)⟩
        exact ho _ List.mem_cons_self ⟨k, fields, field, rfl, hf, hu⟩

/-- The nodes of a list that are evaluated are those that none of its nodes omits. -/
theorem mem_evaluatedItems : ∀ {items : List Value} {p : Path} {i : Nat},
    n ∈ evaluatedItems p i items ↔ n ∈ itemNodes p i items ∧
      ∀ m ∈ itemNodes p i items, ¬ Omits m n.1
  | [], _, _ => by simp [evaluatedItems, itemNodes]
  | v :: rest, p, i => by
    rw [evaluatedItems, itemNodes, List.mem_append, List.mem_append, mem_evaluated,
      mem_evaluatedItems]
    constructor
    · rintro (⟨hn, ho⟩ | ⟨hn, ho⟩)
      · refine ⟨.inl hn, fun m hm => (List.mem_append.1 hm).elim (ho m) fun hm => ?_⟩
        obtain ⟨j, hij, hj⟩ := under_itemNodes hm
        refine not_omits hj fun hu => ?_
        have := (under_nodes hn).item_inj hu
        omega
      · refine ⟨.inr hn, fun m hm => (List.mem_append.1 hm).elim (fun hm => ?_) (ho m)⟩
        obtain ⟨j, hij, hj⟩ := under_itemNodes hn
        refine not_omits (under_nodes hm) fun hu => ?_
        have := hj.item_inj hu
        omega
    · rintro ⟨hn | hn, ho⟩
      · exact .inl ⟨hn, fun m hm => ho m (List.mem_append_left _ hm)⟩
      · exact .inr ⟨hn, fun m hm => ho m (List.mem_append_right _ hm)⟩

/-- The nodes in the fields of a node that are evaluated are those in no field that the node skips
and that none of them omits. -/
theorem mem_evaluatedFields : ∀ {vs : List Value} {p : Path} {k : Kind} {fs : List FieldDecl},
    (fs.map (·.name)).Nodup → (n ∈ (evaluatedFields p k fs vs).flatten ↔ n ∈ fieldNodes p fs vs ∧
      (∀ field, k.skips field = true → ¬ (p.field field).Under n.1) ∧
      ∀ m ∈ fieldNodes p fs vs, ¬ Omits m n.1)
  | [], _, _, fs, _ => by cases fs <;> simp [evaluatedFields, fieldNodes]
  | _ :: _, _, _, [], _ => by simp [evaluatedFields, fieldNodes]
  | v :: rest, p, k, f :: fs, hf => by
    rw [List.map_cons, List.nodup_cons] at hf
    have hne : ∀ x ∈ fs, x.name ≠ f.name := fun x hx h => hf.1 (List.mem_map.2 ⟨x, hx, h⟩)
    rw [evaluatedFields, fieldNodes, List.flatten_cons, List.mem_append, List.mem_append,
      mem_evaluatedFields hf.2]
    constructor
    · rintro (hn | ⟨hn, hskip, ho⟩)
      · split at hn
        · cases hn
        · next hs =>
          obtain ⟨hn, ho⟩ := mem_evaluated.1 hn
          have hu := under_nodes hn
          refine ⟨.inl hn, fun field hk h => hs (hu.field_inj h ▸ hk), fun m hm => ?_⟩
          refine (List.mem_append.1 hm).elim (ho m) fun hm => ?_
          obtain ⟨x, hx, hux⟩ := under_fieldNodes hm
          exact not_omits hux fun h => hne x hx (h.field_inj hu)
      · refine ⟨.inr hn, hskip, fun m hm => (List.mem_append.1 hm).elim (fun hm => ?_) (ho m)⟩
        obtain ⟨x, hx, hu⟩ := under_fieldNodes hn
        exact not_omits (under_nodes hm) fun h => hne x hx (hu.field_inj h)
    · rintro ⟨hn | hn, hskip, ho⟩
      · have hs : ¬ k.skips f.name = true := fun hk => hskip _ hk (under_nodes hn)
        rw [if_neg hs]
        exact .inl (mem_evaluated.2 ⟨hn, fun m hm => ho m (List.mem_append_left _ hm)⟩)
      · exact .inr ⟨hn, hskip, fun m hm => ho m (List.mem_append_right _ hm)⟩

end

mutual

/-- The places of the evaluated nodes of a value are distinct. -/
theorem nodup_evaluated : ∀ (v : Value) (p : Path), ((v.evaluated p).map (·.1)).Nodup
  | .scalar _, _ => by simp [evaluated]
  | .list items, p => by
    rw [evaluated]
    exact nodup_evaluatedItems items p 0
  | .node k fields, p => by
    have hperm :=
      ((k.evaluationOrder_perm (evaluatedFields p k k.fields fields)).flatten).map (·.1)
    rw [evaluated, List.map_cons, List.nodup_cons]
    constructor
    · intro hp
      obtain ⟨n, hn, rfl⟩ := List.mem_map.1 (hperm.mem_iff.1 hp)
      obtain ⟨f, -, hf⟩ := under_fieldNodes ((mem_evaluatedFields k.nodup_fields).1 hn).1
      exact Path.not_field_under hf
    · exact hperm.nodup_iff.2 (nodup_evaluatedFields fields p k k.nodup_fields)

/-- The evaluated nodes of a list have distinct places. -/
theorem nodup_evaluatedItems : ∀ (items : List Value) (p : Path) (i : Nat),
    ((evaluatedItems p i items).map (·.1)).Nodup
  | [], _, _ => by simp [evaluatedItems]
  | v :: rest, p, i => by
    rw [evaluatedItems, List.map_append, List.nodup_append]
    refine ⟨nodup_evaluated v _, nodup_evaluatedItems rest p (i + 1), ?_⟩
    intro a ha b hb hab
    obtain ⟨n, hn, rfl⟩ := List.mem_map.1 ha
    obtain ⟨m, hm, rfl⟩ := List.mem_map.1 hb
    obtain ⟨j, hij, hj⟩ := under_itemNodes (mem_evaluatedItems.1 hm).1
    rw [← hab] at hj
    have := (under_nodes (mem_evaluated.1 hn).1).item_inj hj
    omega

/-- The evaluated nodes in the fields of a node have distinct places. -/
theorem nodup_evaluatedFields : ∀ (vs : List Value) (p : Path) (k : Kind) {fs : List FieldDecl},
    (fs.map (·.name)).Nodup → ((evaluatedFields p k fs vs).flatten.map (·.1)).Nodup
  | [], _, _, fs, _ => by cases fs <;> simp [evaluatedFields]
  | _ :: _, _, _, [], _ => by simp [evaluatedFields]
  | v :: rest, p, k, f :: fs, hf => by
    rw [List.map_cons, List.nodup_cons] at hf
    rw [evaluatedFields, List.flatten_cons, List.map_append, List.nodup_append]
    refine ⟨?_, nodup_evaluatedFields rest p k hf.2, ?_⟩
    · split
      · exact List.nodup_nil
      · exact nodup_evaluated v _
    · intro a ha b hb hab
      obtain ⟨n, hn, rfl⟩ := List.mem_map.1 ha
      obtain ⟨m, hm, rfl⟩ := List.mem_map.1 hb
      obtain ⟨x, hx, hu⟩ := under_fieldNodes ((mem_evaluatedFields hf.2).1 hm).1
      rw [← hab] at hu
      split at hn
      · cases hn
      · have hname := (under_nodes (mem_evaluated.1 hn).1).field_inj hu
        exact hf.1 (List.mem_map.2 ⟨x, hx, hname.symm⟩)

end

end Value

end LastUse
