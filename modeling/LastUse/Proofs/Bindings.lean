import LastUse.Binding
import LastUse.Proofs.Flow.Stretches
import LastUse.Proofs.Ownership

/-!
# The order of bindings

The bindings of a function are its parameters and then its locals. The walk that finds the locals
meets the statements in the order in which they are evaluated (`Value.declared_eq`), and so do the
sites of the statements that declare names (`FlowGraph.pairwise_declarations`). Each local is
listed where its name is declared first (`Firsts`), so the locals are in the order of the first
sites of these statements: `FlowGraph.locals_in_order`.
-/

namespace LastUse

/-- The kinds of statements that declare a name. -/
def Kind.declaring : List Kind := [.decl, .foreach]

/-- The place of the statement that declares a local. -/
def Binding.stmt (b : Binding) : Path :=
  match b.place with
  | some (.field p _) => p
  | _ => .root

namespace Value

/-- The binding that a node declares, if it declares one. -/
def declaration? (n : Path × Value) : Option Binding :=
  match n.2 with
  | .node k fields => declaredName? n.1 k fields
  | _ => none

variable {n : Path × Value} {v : Value} {p : Path} {b : Binding}

/-- What a node declares is told by its kind and its fields. -/
theorem declaration?_node (p : Path) (k : Kind) (fields : List Value) :
    declaration? (p, .node k fields) = declaredName? p k fields :=
  rfl

/-- What a node declares is a local, found at a field of the node. -/
theorem of_declaration? (h : declaration? n = some b) :
    n.2.isOf Kind.declaring = true ∧ b.isParameter = false ∧ b.stmt = n.1 := by
  obtain ⟨p, v⟩ := n
  cases v with
  | scalar | list => cases h
  | node k fields =>
    rw [declaration?_node] at h
    unfold declaredName? at h
    split at h <;> cases h <;> exact ⟨rfl, rfl, rfl⟩

/-- Expressions declare nothing. -/
theorem filterMap_declaration?_eq_nil {nodes : List (Path × Value)}
    (h : ∀ n ∈ nodes, n.2.isOf Kind.exprs = true) : nodes.filterMap declaration? = [] := by
  refine List.filterMap_eq_nil_iff.2 fun n hn => ?_
  cases hd : declaration? n with
  | none => rfl
  | some b => exact absurd (of_declaration? hd).1 (not_isOf (by decide) (h n hn))

/-! ## The declarations of a function -/

/-- A field that holds a part of a node holds an expression or a statement, or nothing. -/
theorem admits_part {t : FieldType} (ht : t.role = .part) (h : t.admits v = true) :
    v.isNull = true ∨ v.isOf (Kind.exprs ++ Kind.stmts) = true := by
  have hexpr : v.isOf Kind.exprs = true → v.isOf (Kind.exprs ++ Kind.stmts) = true :=
    isOf_mono (by decide)
  have hstmt : v.isOf Kind.stmts = true → v.isOf (Kind.exprs ++ Kind.stmts) = true :=
    isOf_mono (by decide)
  cases t with
  | expr => exact .inr (hexpr h)
  | exprOrNone => exact (Bool.or_eq_true_iff.1 h).imp_right hexpr
  | block => exact .inr (isOf_mono (by decide) h)
  | stmt => exact .inr (hstmt h)
  | stmtOrNone => exact (Bool.or_eq_true_iff.1 h).imp_right hstmt
  | clause =>
    rcases Bool.or_eq_true_iff.1 h with h | h
    · exact (Bool.or_eq_true_iff.1 h).imp_right hexpr
    · exact .inr (hstmt h)
  | text | texts | scalar | exprs | stmts | cases => cases ht

/-- A field that holds parts of a node holds a list of expressions and statements. -/
theorem admits_parts {t : FieldType} (ht : t.role = .parts) (h : t.admits v = true) :
    ∃ items, v = .list items ∧ ∀ x ∈ items, x.isOf (Kind.exprs ++ Kind.stmts) = true := by
  cases t with
  | exprs | stmts | cases =>
    obtain ⟨items, rfl, hall⟩ := exists_list_of_isListOf h
    exact ⟨items, rfl, fun x hx => isOf_mono (by decide) (hall x hx)⟩
  | text | texts | scalar | expr | exprOrNone | block | stmt | stmtOrNone | clause => cases ht

/-- A field that holds no part of a node holds nothing that is evaluated. -/
theorem evaluated_of_data {t : FieldType} (ht : t.role = .data) (hne : t ≠ .scalar)
    (h : t.admits v = true) (p : Path) : v.evaluated p = [] := by
  cases t with
  | text => exact evaluated_of_isText h p
  | texts => exact evaluated_of_isTexts h p
  | scalar => exact absurd rfl hne
  | expr | exprOrNone | block | stmt | stmtOrNone | clause | exprs | stmts | cases => cases ht

/-- The fields that are not evaluated hold no declarations. -/
theorem declarations_of_field {k : Kind} {f : FieldDecl}
    (hf : k.skips f.name = true → f.type = .exprs)
    (ha : f.type.admits v = true) (ht : v.wellTyped = true) (p : Path) :
    (if k.skips f.name then [] else v.evaluated p).filterMap declaration? =
      (v.evaluated p).filterMap declaration? := by
  split
  · next hskip =>
    rw [hf hskip] at ha
    obtain ⟨items, rfl, hall⟩ := exists_list_of_isListOf ha
    exact (filterMap_declaration?_eq_nil fun n hn => isOf_evaluatedItems hall ht hn).symm
  · rfl

/-- The step of a `for` loop, which is evaluated behind the body, declares nothing. -/
theorem declarations_evaluationOrder {k : Kind} {fields : List Value}
    (ht : fieldsWellTyped k.fields fields = true) (p : Path) :
    (k.evaluationOrder (evaluatedFields p k k.fields fields)).flatten.filterMap declaration? =
      (evaluatedFields p k k.fields fields).flatten.filterMap declaration? := by
  by_cases hk : k = .forLoop
  · subst hk
    obtain ⟨init, cond, step, body, rfl⟩ : ∃ a b c d, fields = [a, b, c, d] := by
      have hlen := length_of_typed ht
      match fields, hlen with
      | [a, b, c, d], _ => exact ⟨a, b, c, d, rfl⟩
    obtain ⟨hs, hst, -⟩ := typed_cons (typed_cons (typed_cons ht).2.2).2.2
    have hstep : (step.evaluated (p.field "step")).filterMap declaration? = [] := by
      rcases isExprOrNull hs hst with rfl | hs
      · rfl
      · exact filterMap_declaration?_eq_nil fun n hn => (isExpr_evaluated hs hn).1
    have hswap : ∀ a b c d : List (Path × Value), c.filterMap declaration? = [] →
        (a ++ (b ++ (d ++ (c ++ [])))).filterMap declaration? =
          (a ++ (b ++ (c ++ (d ++ [])))).filterMap declaration? := by
      intro a b c d hc
      simp [hc]
    exact hswap (init.evaluated (p.field "init")) (cond.evaluated (p.field "cond")) _
      (body.evaluated (p.field "body")) hstep
  · congr 2
    cases k <;> first | rfl | exact absurd rfl hk

mutual

/-- The walk through a statement finds the declarations in the order of evaluation. -/
theorem declared_eq : ∀ (v : Value) (p : Path),
    v.isNull = true ∨ v.isOf (Kind.exprs ++ Kind.stmts) = true → v.wellTyped = true →
    v.declared p = .ok ((v.evaluated p).filterMap declaration?)
  | .scalar _, _, _, _ => by simp [declared, evaluated]
  | .list _, _, hk, _ => by rcases hk with hk | hk <;> cases hk
  | .node k fields, p, hk, ht => by
    have hk := List.mem_append.1 (List.contains_iff_mem.1 (hk.resolve_left Bool.false_ne_true))
    rcases hk with hk | hk
    · have hnone : k.isStmt = false := (by decide : ∀ k ∈ Kind.exprs, k.isStmt = false) k hk
      have hexpr : (node k fields).IsExpr := ⟨List.contains_iff_mem.2 hk, ht⟩
      rw [filterMap_declaration?_eq_nil fun n hn => (isExpr_evaluated hexpr hn).1, declared, hnone]
      rfl
    · have hstmt : k.isStmt = true := List.contains_iff_mem.2 hk
      have hlit : k ≠ .literal := by
        rintro rfl
        exact absurd hk (by decide)
      rw [wellTyped] at ht
      rw [declared, hstmt, if_pos rfl, declaredFields_eq fields p k (Kind.typed_fields hlit) ht,
        evaluated, List.filterMap_cons, declarations_evaluationOrder ht]
      show Except.ok ((declaredName? p k fields).toList ++ _) = _
      rw [declaration?_node]
      cases declaredName? p k fields <;> rfl

/-- The walk over the items of a list finds what their nodes declare, in order. -/
theorem declaredItems_eq : ∀ (items : List Value) (p : Path) (i : Nat),
    (∀ v ∈ items, v.isOf (Kind.exprs ++ Kind.stmts) = true) → itemsWellTyped items = true →
    declaredItems p i items = .ok ((evaluatedItems p i items).filterMap declaration?)
  | [], _, _, _, _ => by simp [declaredItems, evaluatedItems]
  | v :: rest, p, i, hk, ht => by
    rw [List.forall_mem_cons] at hk
    rw [itemsWellTyped, Bool.and_eq_true] at ht
    rw [declaredItems, declared_eq v _ (.inr hk.1) ht.1, declaredItems_eq rest p (i + 1) hk.2 ht.2,
      evaluatedItems, List.filterMap_append]
    rfl

/-- The walk over the fields of a node finds what their nodes declare, in order. -/
theorem declaredFields_eq : ∀ (vs : List Value) (p : Path) (k : Kind) {fs : List FieldDecl},
    (∀ f ∈ fs, f.type ≠ .scalar ∧ (k.skips f.name = true → f.type = .exprs)) →
    fieldsWellTyped fs vs = true →
    declaredFields p fs vs = .ok ((evaluatedFields p k fs vs).flatten.filterMap declaration?)
  | [], _, _, fs, _, _ => by cases fs <;> simp [declaredFields, evaluatedFields]
  | _ :: _, _, _, [], _, _ => by simp [declaredFields, evaluatedFields]
  | v :: rest, p, k, f :: fs, hf, ht => by
    rw [List.forall_mem_cons] at hf
    obtain ⟨ha, hv, ht⟩ := typed_cons ht
    rw [decide_eq_false hf.1.1, Bool.false_or] at hv
    rw [evaluatedFields, List.flatten_cons, List.filterMap_append,
      declarations_of_field hf.1.2 ha hv]
    unfold declaredFields
    rw [declaredFields_eq rest p k hf.2 ht]
    cases hrole : f.type.role with
    | data =>
      rw [evaluated_of_data hrole hf.1.1 ha]
      rfl
    | part =>
      dsimp only
      rw [declared_eq v _ (admits_part hrole ha) hv]
      rfl
    | parts =>
      obtain ⟨items, rfl, hall⟩ := admits_parts hrole ha
      dsimp only
      rw [declaredItems_eq items _ 0 hall hv]
      rfl

end

/-- The names of the parameters of a function. -/
def parameterNames : Value → List Value
  | .node .function [_, .list names, _] => names
  | _ => []

/-- The parameters have the names of the list, and are marked as parameters. -/
theorem names_parameters (p : Path) (names : List Value) :
    (parameters p names).map (fun b => (b.name, b.isParameter)) = names.map (·, true) := by
  rw [parameters, List.map_map]
  conv_rhs => rw [← List.zipIdx_map_fst 0 names, List.map_map]
  rfl

/-- The bindings of a function are its parameters and the new ones among its declarations. -/
theorem bindings_eq {tree : Value} (ht : tree.wellTyped = true)
    (hf : tree.isOf [.function] = true) :
    (∀ v ∈ tree.parameterNames, v.isText = true) ∧
      tree.bindings =
        newBindings (parameters (Path.root.field "params") tree.parameterNames)
            ((tree.evaluated .root).filterMap declaration?) >>=
          fun locals =>
            pure (parameters (Path.root.field "params") tree.parameterNames ++ locals) := by
  obtain ⟨name, params, fields, rfl, hn, hp, hb⟩ := exists_body ht hf
  obtain ⟨names, rfl, hnames⟩ := exists_list_of_isListOf hp
  have hkeys : names.any (fun v => !v.isKey) = false := by
    refine List.any_eq_false.2 fun v hv => ?_
    obtain ⟨s, rfl⟩ := exists_text (hnames v hv)
    exact Bool.false_ne_true
  refine ⟨hnames, ?_⟩
  rw [evaluated_function hn hp, List.filterMap_cons, bindings]
  dsimp only [items?]
  rw [hkeys, declared_eq _ _ (.inr (isOf_mono (by decide) hb.1)) hb.2]
  rfl

/-- A declared name of a well-typed tree is a text. -/
theorem isText_of_declaration? {tree : Value} (ht : tree.wellTyped = true)
    (hn : n ∈ tree.evaluated p) (h : declaration? n = some b) : b.name.isText = true := by
  have htn := wellTyped_evaluated ht hn
  obtain ⟨q, v⟩ := n
  cases v with
  | scalar | list => cases h
  | node k fields =>
    rw [declaration?_node] at h
    unfold declaredName? at h
    split at h <;> cases h <;> exact (typed_cons htn).1

end Value

/-! ## The bindings that are new -/

/-- The bindings of a list whose names are not among those seen, each name once and where it comes
first. -/
structure Firsts (seen : List Value) (all new : List Binding) : Prop where
  sublist : new.Sublist all
  nodup : (new.map (·.name)).Nodup
  names : ∀ v, v ∈ new.map (·.name) ↔ v ∉ seen ∧ v ∈ all.map (·.name)
  first : ∀ b ∈ new, ∃ before after, all = before ++ b :: after ∧ ∀ c ∈ before, c.name ≠ b.name

namespace Firsts

variable {seen : List Value} {all new : List Binding} {b : Binding}

/-- Of no bindings there are none. -/
theorem nil : Firsts seen [] [] :=
  ⟨.slnil, .nil, by simp, by simp⟩

/-- A binding with a name that was seen is no new one. -/
theorem skip (h : Firsts seen all new) (hb : b.name ∈ seen) : Firsts seen (b :: all) new := by
  refine ⟨h.sublist.cons b, h.nodup, fun v => ?_, fun c hc => ?_⟩
  · rw [h.names, List.map_cons, List.mem_cons]
    refine and_congr_right fun hv => (or_iff_right ?_).symm
    intro heq
    exact hv (heq ▸ hb)
  · obtain ⟨before, after, rfl, hne⟩ := h.first c hc
    have hseen := ((h.names c.name).1 (List.mem_map_of_mem hc)).1
    refine ⟨b :: before, after, rfl, List.forall_mem_cons.2 ⟨?_, hne⟩⟩
    intro heq
    exact hseen (heq ▸ hb)

/-- A binding with another name is new, and from then on its name is one that was seen. -/
theorem keep (h : Firsts (b.name :: seen) all new) (hb : b.name ∉ seen) :
    Firsts seen (b :: all) (b :: new) := by
  have hnew : ∀ v ∈ new.map (·.name), v ≠ b.name ∧ v ∉ seen := by
    intro v hv
    rw [← not_or, ← List.mem_cons]
    exact ((h.names v).1 hv).1
  refine ⟨h.sublist.cons_cons b, List.nodup_cons.2 ⟨fun hmem => (hnew _ hmem).1 rfl, h.nodup⟩,
    fun v => ?_, ?_⟩
  · by_cases hv : v = b.name
    · simp [hv, hb]
    · rw [List.map_cons, List.mem_cons, h.names, List.map_cons, List.mem_cons, List.mem_cons]
      tauto
  · refine List.forall_mem_cons.2 ⟨⟨[], all, rfl, by simp⟩, fun c hc => ?_⟩
    obtain ⟨before, after, rfl, hne⟩ := h.first c hc
    refine ⟨b :: before, after, rfl, List.forall_mem_cons.2 ⟨?_, hne⟩⟩
    exact (hnew _ (List.mem_map_of_mem hc)).1.symm

/-- In a list that is in some order, a new binding is before all others of its name. -/
theorem before {R : Binding → Binding → Prop} (h : Firsts seen all new) (hall : all.Pairwise R)
    (hb : b ∈ new) : ∀ c ∈ all, c.name = b.name → c = b ∨ R b c := by
  obtain ⟨before, after, rfl, hne⟩ := h.first b hb
  intro c hc heq
  rcases List.mem_append.1 hc with hc | hc
  · exact absurd heq (hne c hc)
  · rcases List.mem_cons.1 hc with hc | hc
    · exact .inl hc
    · exact .inr (List.rel_of_pairwise_cons (List.pairwise_append.1 hall).2.1 hc)

end Firsts

/-- Bindings with texts for names have the same name if the texts are equal. -/
theorem Binding.sameName_iff {a b : Binding} (ha : a.name.isText = true)
    (hb : b.name.isText = true) : a.sameName b = true ↔ a.name = b.name := by
  obtain ⟨s, hs⟩ := Value.exists_text ha
  obtain ⟨t, ht⟩ := Value.exists_text hb
  simp [sameName, hs, ht, Scalar.sameKey, Scalar.same, Scalar.dyadic?]

namespace Value

/-- A binding is new unless its name was seen before. -/
theorem newBindings_cons {seen rest : List Binding} {b : Binding} (hb : b.name.isText = true) :
    newBindings seen (b :: rest) =
      if seen.any b.sameName then newBindings seen rest
      else newBindings (b :: seen) rest >>= fun new => pure (b :: new) := by
  obtain ⟨s, hs⟩ := exists_text hb
  cases b
  cases hs
  rfl

/-- The search for new bindings finds the first ones of their names. -/
theorem newBindings_firsts {seen all : List Binding} (hseen : ∀ b ∈ seen, b.name.isText = true)
    (hall : ∀ b ∈ all, b.name.isText = true) :
    ∃ new, newBindings seen all = .ok new ∧ Firsts (seen.map (·.name)) all new := by
  induction all generalizing seen with
  | nil => exact ⟨[], rfl, .nil⟩
  | cons b rest ih =>
    rw [List.forall_mem_cons] at hall
    have hany : seen.any b.sameName = true ↔ b.name ∈ seen.map (·.name) := by
      rw [List.any_eq_true, List.mem_map]
      refine exists_congr fun c => and_congr_right fun hc => ?_
      rw [Binding.sameName_iff hall.1 (hseen c hc), eq_comm]
    rw [newBindings_cons hall.1]
    by_cases hb : b.name ∈ seen.map (·.name)
    · obtain ⟨new, hnew, h⟩ := ih hseen hall.2
      rw [if_pos (hany.2 hb)]
      exact ⟨new, hnew, h.skip hb⟩
    · obtain ⟨new, hnew, h⟩ := ih (List.forall_mem_cons.2 ⟨hall.1, hseen⟩) hall.2
      rw [if_neg fun hseen => hb (hany.1 hseen), hnew]
      exact ⟨b :: new, rfl, h.keep hb⟩

end Value

/-! ## The sites of declarations -/

/-- Some stretches are those of a part of the nodes of a tree: the statements that declare names
have one each, in the order of the nodes, and every stretch is that of a node. -/
structure StretchesOf (xs : List (Path × Bool)) (nodes : List (Path × Value)) : Prop where
  declaring : (xs.filter (·.2)).map (·.1) = (nodes.filter (·.2.isOf Kind.declaring)).map (·.1)
  places : ∀ x ∈ xs, ∃ n ∈ nodes, n.1 = x.1 ∧ n.2.isOf Kind.declaring = x.2

namespace StretchesOf

variable {xs ys : List (Path × Bool)} {x y : List (Path × Value)} {p : Path} {k : Kind} {e : Value}
  {fields : List Value}

/-- No nodes have no stretches. -/
theorem nil : StretchesOf [] [] := ⟨rfl, by simp⟩

/-- The stretches of some nodes and of further ones are those of all of them. -/
theorem append (hx : StretchesOf xs x) (hy : StretchesOf ys y) :
    StretchesOf (xs ++ ys) (x ++ y) := by
  refine ⟨?_, fun z hz => ?_⟩
  · simp only [List.filter_append, List.map_append, hx.declaring, hy.declaring]
  · rcases List.mem_append.1 hz with hz | hz
    · obtain ⟨n, hn, hnz⟩ := hx.places z hz
      exact ⟨n, List.mem_append_left y hn, hnz⟩
    · obtain ⟨n, hn, hnz⟩ := hy.places z hz
      exact ⟨n, List.mem_append_right x hn, hnz⟩

/-- What has no stretches, in front of others. -/
theorem before (hx : StretchesOf [] x) (hy : StretchesOf ys y) : StretchesOf ys (x ++ y) :=
  append hx hy

/-- What has no stretches, behind others. -/
theorem behind (hx : StretchesOf xs x) (hy : StretchesOf [] y) : StretchesOf xs (x ++ y) := by
  simpa only [List.append_nil] using append hx hy

/-- Nothing comes behind what the last field holds. -/
theorem last (h : StretchesOf xs x) : StretchesOf xs (x ++ []) := by
  rwa [List.append_nil]

/-- Expressions declare no names. -/
theorem expr (he : e.IsExpr) : StretchesOf [] (e.evaluated p) := by
  have hnone : (e.evaluated p).filter (·.2.isOf Kind.declaring) = [] :=
    List.filter_eq_nil_iff.2 fun n hn =>
      Value.not_isOf (by decide) (Value.isExpr_evaluated he hn).1
  exact ⟨by rw [hnone]; rfl, by simp⟩

/-- An expression has no stretches, nor has a missing one. -/
theorem exprOrNull (he : e.IsExprOrNull) : StretchesOf [] (e.evaluated p) := by
  rcases he with rfl | he
  · exact nil
  · exact expr he

/-- A statement that declares a name, in front of its parts. -/
theorem declaration (h : StretchesOf xs x) (hk : k ∈ Kind.declaring := by decide) :
    StretchesOf ((p, true) :: xs) ((p, .node k fields) :: x) := by
  have hdecl : (Value.node k fields).isOf Kind.declaring = true := List.contains_iff_mem.2 hk
  refine ⟨?_, List.forall_mem_cons.2 ⟨⟨_, List.mem_cons_self, rfl, hdecl⟩, fun z hz => ?_⟩⟩
  · rw [List.filter_cons_of_pos rfl, List.filter_cons, if_pos hdecl, List.map_cons, List.map_cons,
      h.declaring]
  · obtain ⟨n, hn, hnz⟩ := h.places z hz
    exact ⟨n, List.mem_cons_of_mem _ hn, hnz⟩

/-- A node that declares no name, in front of its parts. Its own stretches are anywhere among
theirs. -/
theorem node (h : StretchesOf xs x) (hfilter : ys.filter (·.2) = xs.filter (·.2))
    (hys : ∀ z ∈ ys, z ∈ xs ∨ z = (p, false)) (hk : k ∉ Kind.declaring := by decide) :
    StretchesOf ys ((p, .node k fields) :: x) := by
  have hdecl : ¬ (Value.node k fields).isOf Kind.declaring = true :=
    fun h => hk (List.contains_iff_mem.1 h)
  refine ⟨?_, fun z hz => ?_⟩
  · rw [hfilter, List.filter_cons, if_neg hdecl, h.declaring]
  · rcases hys z hz with hz | rfl
    · obtain ⟨n, hn, hnz⟩ := h.places z hz
      exact ⟨n, List.mem_cons_of_mem _ hn, hnz⟩
    · exact ⟨_, List.mem_cons_self, rfl, Bool.eq_false_iff.2 hdecl⟩

/-- A node without a stretch of its own. -/
theorem plain (h : StretchesOf xs x) (hk : k ∉ Kind.declaring := by decide) :
    StretchesOf xs ((p, .node k fields) :: x) :=
  h.node rfl (fun _ hz => .inl hz) hk

/-- A statement that has its stretch in front of those of its parts. -/
theorem headed (h : StretchesOf xs x) (hk : k ∉ Kind.declaring := by decide) :
    StretchesOf ((p, false) :: xs) ((p, .node k fields) :: x) :=
  h.node rfl (fun _ hz => (List.mem_cons.1 hz).symm) hk

/-- A loop that has stretches in front of its body and behind it. -/
theorem around (h : StretchesOf (xs ++ ys) x) (hk : k ∉ Kind.declaring := by decide) :
    StretchesOf (xs ++ (p, false) :: (p, false) :: (ys ++ [(p, false)]))
      ((p, .node k fields) :: x) := by
  refine h.node (by simp) (fun z hz => ?_) hk
  simp only [List.mem_append, List.mem_cons, List.not_mem_nil, or_false] at hz ⊢
  tauto

/-- No other stretch is that of a statement that declares a name. -/
theorem pairwise {tree : Value} (h : StretchesOf xs (tree.evaluated p)) :
    xs.Pairwise fun a b => a.2 = true ∨ b.2 = true → a.1 ≠ b.1 := by
  have hnodup : ((xs.filter (·.2)).map (·.1)).Nodup := by
    rw [h.declaring]
    exact (Value.nodup_evaluated tree p).sublist (List.filter_sublist.map _)
  have hboth := List.pairwise_filter.1 (List.pairwise_map.1 hnodup)
  refine hboth.imp_of_mem fun {a b} ha hb hne hor heq => ?_
  -- Two stretches with one place are those of one node.
  obtain ⟨n, hn, hna, hda⟩ := h.places a ha
  obtain ⟨m, hm, hmb, hdb⟩ := h.places b hb
  obtain rfl := Value.eq_of_place (Value.mem_evaluated.1 hn).1 hm (hna.trans (heq.trans hmb.symm))
  rw [← hda, ← hdb, or_self] at hor
  exact hne (hda ▸ hor) (hdb ▸ hor) heq

end StretchesOf

namespace Stmt

/-- The stretches of a statement are those of its nodes. -/
theorem stretchesOf : Value.StmtInvariant
    (fun p v => StretchesOf (ofValue p v).stretches (v.evaluated p))
    (fun p i items => StretchesOf (stretchesAll (ofItems p i items))
      (Value.evaluatedItems p i items))
    (fun p i items => StretchesOf (stretchesAll (ofItems p i items))
      (Value.evaluatedItems p i items)) where
  absent := .nil
  block h := .plain (.last h)
  exprStmt he := .headed (.last (.expr he))
  decl he := .declaration (.last (.exprOrNull he))
  ifElse hc _ hy hn := .headed (.before (.expr hc) (.append hy (.last hn)))
  whileLoop hc _ hb := .headed (.before (.expr hc) (.last hb))
  doWhile _ hb hc := .node (.behind hb (.last (.expr hc))) (by simp [stretches, ofValue])
    (by simp [stretches, ofValue])
  forLoop := by
    intro p init cond step body hi hc hs _ hb
    have hrest := StretchesOf.before (.exprOrNull (p := p.field "cond") hc)
      (.behind hb (.last (.exprOrNull (p := p.field "step") hs)))
    rcases hi with hi | ⟨hi, hbefore⟩
    · rw [ofValue_forLoop_of_isExpr hi]
      exact .around (StretchesOf.append (.exprOrNull hi) hrest)
    · rw [ofValue_forLoop_of_isStmt hi]
      exact .around (hbefore.append hrest)
  foreach hi _ hb := .declaration (StretchesOf.before (.expr hi) (.last hb) :)
  switch hs ha := .headed (.before (.expr hs) (.last ha))
  caseArm h := .plain (.last h)
  labeled hb := .headed (.last hb)
  goto := .headed .nil
  ret he := .headed (.last (.exprOrNull he))
  brk := .headed .nil
  cont := .headed .nil
  nil := .nil
  cons _ hf hl := .append hf hl
  noArms := .nil
  arm hb ha := .append (.plain (.last hb)) ha

end Stmt

namespace FlowGraph

variable {exitEdges : Except Fault Bool} {tree : Value} {g : FlowGraph}

/-- The stretches that are read from a function are those of all its nodes. -/
theorem stretchesOf_bodyOf (ht : tree.wellTyped = true) (h : ofTree exitEdges tree = .ok g) :
    StretchesOf (bodyOf tree).stretches (tree.evaluated .root) := by
  obtain ⟨name, params, fields, rfl, hn, hp, hb⟩ := Value.exists_body ht (isOf_of_ofTree h)
  rw [Value.evaluated_function hn hp]
  exact .plain (Stmt.stretchesOf.holds hb _)

/-- The sites of a statement that declares a name come before those of the next ones. -/
theorem pairwise_declarations (ht : tree.wellTyped = true) (h : ofTree exitEdges tree = .ok g) :
    (tree.evaluated .root).Pairwise fun n m =>
      n.2.isOf Kind.declaring = true → m.2.isOf Kind.declaring = true →
        ∀ o ∈ g.stmtSites n.1, ∀ o' ∈ g.stmtSites m.1, o < o' := by
  obtain ⟨whole, hg⟩ := exists_drafted (ofBody_of_ofTree h)
  have hof := stretchesOf_bodyOf ht h
  have hstretched : Stretched (bodyOf tree).stretches g.sites := by
    rw [hg.sites]
    exact (Stmt.stretched.flow hg.flow).map fun _ => rfl
  have hsites : g.sites.Pairwise (·.ordinal < ·.ordinal) := by
    rw [← List.pairwise_map]
    exact (laid_of_ofTree h).pairwise_ordinals
  have hplaces :
      ((tree.evaluated .root).filter (·.2.isOf Kind.declaring)).map (·.1) |>.Pairwise fun p q =>
      ∀ s ∈ g.sites, ∀ t ∈ g.sites, s.stmt = p → t.stmt = q → s.ordinal < t.ordinal := by
    rw [← hof.declaring, List.pairwise_map, List.pairwise_filter]
    exact hstretched.pairwise hsites hof.pairwise
  refine (List.pairwise_filter.1 (List.pairwise_map.1 hplaces)).imp ?_
  intro n m hnm hn hm o ho o' ho'
  obtain ⟨s, hs, rfl, hsn⟩ := mem_stmtSites.1 ho
  obtain ⟨t, ht, rfl, htm⟩ := mem_stmtSites.1 ho'
  exact hnm hn hm s hs t ht hsn htm

end FlowGraph

/-! ## The locals of a function -/

/-- A statement of a function declares a name: it is a declaration of the name, or a `foreach` loop
that has the name for its variable. -/
structure Declares (tree name : Value) (n : Path × Value) : Prop where
  mem : n ∈ tree.nodes .root
  outside : OutsideLiterals tree n.1
  name : (∃ fields, n.2 = .node .decl fields ∧ Value.field? .decl fields "name" = some name) ∨
    ∃ fields, n.2 = .node .foreach fields ∧ Value.field? .foreach fields "var" = some name

/-- A statement is the one that declares a name first, and the flow graph has its first site: no
site of a statement that declares the name comes earlier. -/
structure FirstDeclares (tree : Value) (g : FlowGraph) (name : Value) (n : Path × Value)
    (o : Nat) : Prop where
  declares : Declares tree name n
  first : (g.sitesAt n.1).head? = some o
  least : ∀ m, Declares tree name m → ∀ o' ∈ g.sitesAt m.1, o ≤ o'

namespace Value

variable {tree name : Value} {n : Path × Value}

/-- A statement that declares a name is a node with a declaration of it. -/
theorem declaration?_of_declares (h : Declares tree name n) :
    ∃ b, declaration? n = some b ∧ b.name = name := by
  obtain ⟨p, v⟩ := n
  rcases h.name with ⟨fields, hv, hname⟩ | ⟨fields, hv, hname⟩
  all_goals
    obtain rfl : v = _ := hv
    cases fields with
    | nil => cases hname
    | cons first rest =>
      cases hname
      exact ⟨_, rfl, rfl⟩

/-- The statements that declare a name are the evaluated nodes with a binding of the name. -/
theorem declares_iff (ht : tree.wellTyped = true) :
    Declares tree name n ↔ n ∈ tree.evaluated .root ∧ ∃ b, declaration? n = some b ∧
      b.name = name := by
  constructor
  · intro h
    obtain ⟨b, hb, hname⟩ := declaration?_of_declares h
    have hstmt : n.2.isOf Kind.stmts = true := isOf_mono (by decide) (of_declaration? hb).1
    exact ⟨(evaluated_of_isStmt ht h.mem hstmt h.outside).1, b, hb, hname⟩
  · rintro ⟨hn, b, hb, hname⟩
    obtain ⟨hmem, homits⟩ := mem_evaluated.1 hn
    refine ⟨hmem, fun m hm hlit hu => homits m hm ?_, ?_⟩
    · obtain ⟨q, w⟩ := m
      cases w with
      | scalar | list => cases hlit
      | node k fields =>
        obtain rfl : k = .literal := List.mem_singleton.1 (List.contains_iff_mem.1 hlit)
        exact ⟨_, _, "value", rfl, rfl, hu⟩
    · obtain ⟨p, v⟩ := n
      cases v with
      | scalar | list => cases hb
      | node k fields =>
        rw [declaration?_node] at hb
        unfold declaredName? at hb
        split at hb
        · cases hb
          exact .inl ⟨_, rfl, hname ▸ rfl⟩
        · cases hb
          exact .inr ⟨_, rfl, hname ▸ rfl⟩
        · cases hb

/-- The names that are found are those that some statement declares. -/
theorem mem_declared_names (ht : tree.wellTyped = true) :
    name ∈ ((tree.evaluated .root).filterMap declaration?).map (·.name) ↔
      ∃ n, Declares tree name n := by
  rw [List.mem_map]
  constructor
  · rintro ⟨b, hb, hname⟩
    obtain ⟨n, hn, hnb⟩ := List.mem_filterMap.1 hb
    exact ⟨n, (declares_iff ht).2 ⟨hn, b, hnb, hname⟩⟩
  · rintro ⟨n, hn⟩
    obtain ⟨hn, b, hnb, hname⟩ := (declares_iff ht).1 hn
    exact ⟨b, List.mem_filterMap.2 ⟨n, hn, hnb⟩, hname⟩

end Value

namespace FlowGraph

variable {exitEdges : Except Fault Bool} {tree : Value} {g : FlowGraph}
  {n : Path × Value} {b : Binding}

/-- The sites of the statements that declare names are in the order of the declarations. -/
theorem pairwise_declared (ht : tree.wellTyped = true) (h : ofTree exitEdges tree = .ok g) :
    ((tree.evaluated .root).filterMap Value.declaration?).Pairwise fun b c =>
      ∀ o ∈ g.sitesAt b.stmt, ∀ o' ∈ g.sitesAt c.stmt, o < o' := by
  have ha := attributed_of_ofTree ht h
  have hsites : ∀ {n b}, n ∈ tree.evaluated .root → Value.declaration? n = some b →
      n.2.isOf Kind.declaring = true ∧ g.sitesAt b.stmt = g.stmtSites n.1 := by
    intro n b hn hb
    obtain ⟨hk, -, hstmt⟩ := Value.of_declaration? hb
    rw [hstmt, ha.sitesAt_of_sited (Value.mem_evaluated.1 hn).1 (Value.isOf_mono (by decide) hk)]
    exact ⟨hk, rfl⟩
  rw [List.pairwise_filterMap]
  refine (pairwise_declarations ht h).imp_of_mem fun {n m} hn hm hnm b hb c hc => ?_
  obtain ⟨hkn, hsn⟩ := hsites hn hb
  obtain ⟨hkm, hsm⟩ := hsites hm hc
  rw [hsn, hsm]
  exact hnm hkn hkm

/-- A binding that is before all others of its name is found at the statement that declares it
first. -/
theorem exists_firstDeclares (ht : tree.wellTyped = true) (h : ofTree exitEdges tree = .ok g)
    (hn : n ∈ tree.evaluated .root) (hb : Value.declaration? n = some b)
    (hfirst : ∀ c ∈ (tree.evaluated .root).filterMap Value.declaration?, c.name = b.name →
      c = b ∨ ∀ o ∈ g.sitesAt b.stmt, ∀ o' ∈ g.sitesAt c.stmt, o < o') :
    ∃ o, (g.sitesAt b.stmt).head? = some o ∧ FirstDeclares tree g b.name n o := by
  obtain ⟨hk, -, hstmt⟩ := Value.of_declaration? hb
  have hsited : n.2.isOf Kind.sited = true := Value.isOf_mono (by decide) hk
  have ha := attributed_of_ofTree ht h
  obtain ⟨s, hs, hsn⟩ := ha.sites n hn hsited
  have hmem : s.ordinal ∈ g.sitesAt n.1 :=
    mem_sitesAt_of_stmtSites (mem_stmtSites.2 ⟨s, hs, rfl, hsn⟩)
  have hsorted : (g.sitesAt n.1).Pairwise (· < ·) := by
    rw [ha.sitesAt_of_sited (Value.mem_evaluated.1 hn).1 hsited]
    exact (laid_of_ofTree h).pairwise_stmtSites n.1
  rw [hstmt] at hfirst ⊢
  cases hsites : g.sitesAt n.1 with
  | nil =>
    rw [hsites] at hmem
    cases hmem
  | cons o rest =>
    rw [hsites] at hsorted hfirst
    refine ⟨o, rfl, (Value.declares_iff ht).2 ⟨hn, b, hb, rfl⟩, by rw [hsites]; rfl, ?_⟩
    intro m hm o' ho'
    obtain ⟨hm, c, hc, hname⟩ := (Value.declares_iff ht).1 hm
    have hcm := (Value.of_declaration? hc).2.2
    rcases hfirst c (List.mem_filterMap.2 ⟨m, hm, hc⟩) hname with rfl | hlt
    · rw [← hcm, hstmt, hsites] at ho'
      rcases List.mem_cons.1 ho' with rfl | ho'
      · exact Nat.le_refl _
      · exact Nat.le_of_lt (List.rel_of_pairwise_cons hsorted ho')
    · exact Nat.le_of_lt (hlt o List.mem_cons_self o' (hcm ▸ ho'))

/-- The bindings of a function are its parameters, in order, and then the names that its statements
declare and that are no parameters, each once. These locals are in the order of the first sites of
the statements that declare them first. What a literal holds is no part of a function, so
statements there do not count. -/
theorem locals_in_order (ht : tree.wellTyped = true) (h : ofTree exitEdges tree = .ok g) :
    ∃ params locals ordinals, tree.bindings = .ok (params ++ locals) ∧
      params.map (fun b => (b.name, b.isParameter)) = tree.parameterNames.map (·, true) ∧
      (∀ b ∈ locals, b.isParameter = false) ∧ (locals.map (·.name)).Nodup ∧
      (∀ name, name ∈ locals.map (·.name) ↔ name ∉ tree.parameterNames ∧
        ∃ n, Declares tree name n) ∧
      List.Forall₂ (fun b o => ∃ n, FirstDeclares tree g b.name n o) locals ordinals ∧
      ordinals.Pairwise (· < ·) := by
  obtain ⟨hnames, hbindings⟩ := Value.bindings_eq ht (isOf_of_ofTree h)
  have hparams := Value.names_parameters (Path.root.field "params") tree.parameterNames
  have hsorted := pairwise_declared ht h
  have hdeclared : ∀ b ∈ (tree.evaluated .root).filterMap Value.declaration?,
      ∃ n ∈ tree.evaluated .root, Value.declaration? n = some b := fun b => List.mem_filterMap.1
  generalize Value.parameters (Path.root.field "params") tree.parameterNames = params at *
  have hseen : params.map (·.name) = tree.parameterNames := by
    simpa [Function.comp_def] using congrArg (List.map Prod.fst) hparams
  obtain ⟨locals, hlocals, hfirsts⟩ := Value.newBindings_firsts
    (fun b hb => hnames _ (hseen ▸ List.mem_map_of_mem hb)) (fun b hb => by
      obtain ⟨n, hn, hnb⟩ := hdeclared b hb
      exact Value.isText_of_declaration? ht hn hnb)
  rw [hseen] at hfirsts
  -- Each local is found where its name is declared first.
  have hfirst : ∀ b ∈ locals, ∃ o, (g.sitesAt b.stmt).head? = some o ∧
      ∃ n, FirstDeclares tree g b.name n o := by
    intro b hb
    obtain ⟨n, hn, hnb⟩ := hdeclared b (hfirsts.sublist.subset hb)
    obtain ⟨o, ho, hfd⟩ := exists_firstDeclares ht h hn hnb (hfirsts.before hsorted hb)
    exact ⟨o, ho, n, hfd⟩
  refine ⟨params, locals, locals.map fun b => (g.sitesAt b.stmt).headD 0, ?_, hparams, ?_,
    hfirsts.nodup, ?_, ?_, ?_⟩
  · rw [hbindings, hlocals]
    rfl
  · intro b hb
    obtain ⟨n, -, hnb⟩ := hdeclared b (hfirsts.sublist.subset hb)
    exact (Value.of_declaration? hnb).2.1
  · intro name
    rw [hfirsts.names, Value.mem_declared_names ht]
  · refine List.forall₂_map_right_iff.2 (List.forall₂_same.2 fun b hb => ?_)
    obtain ⟨o, ho, hfd⟩ := hfirst b hb
    rwa [List.headD_eq_head?_getD, ho]
  · refine List.pairwise_map.2 ((hsorted.sublist hfirsts.sublist).imp_of_mem fun {b c} hb hc hlt =>
      ?_)
    obtain ⟨o, ho, -⟩ := hfirst b hb
    obtain ⟨o', ho', -⟩ := hfirst c hc
    rw [List.headD_eq_head?_getD, List.headD_eq_head?_getD, ho, ho']
    exact hlt o (List.mem_of_head? ho) o' (List.mem_of_head? ho')

end FlowGraph

namespace Sample

/-- A `for` loop that declares its counter and has a loop over items in its body, then a `switch`.
The item has the name of the parameter, and one name is declared twice. -/
def shadows : Value :=
  function [.node .forLoop [.node .decl [.str "i", .null], name "i",
      .node .call [.str "next", .list [name "i"]],
      .node .doWhile [.node .block [.list [.node .decl [.str "a", name "i"],
        .node .foreach [.str "x", name "a", use "x"]]], name "a"]],
    .node .switch [name "i",
      .list [.node .caseArm [.list [], .list [.node .decl [.str "b", .null]]]]],
    .node .foreach [.str "a", name "b", use "a"]]

/-- What the body of the loop declares comes between sites of the loop. The item, which has the
name of the parameter, and the second declaration of `a` add nothing. -/
theorem locals_of_shadows :
    shadows.wellTyped = true ∧ FlowGraph.ofTree (.ok true) shadows = .ok (graph shadows) ∧
      ∃ params locals ordinals, shadows.bindings = .ok (params ++ locals) ∧
        (params ++ locals).map (fun b => (b.name, b.isParameter)) =
          [(.str "x", true), (.str "i", false), (.str "a", false), (.str "b", false)] ∧
        List.Forall₂ (fun b o => ∃ n, FirstDeclares shadows (graph shadows) b.name n o)
          locals ordinals ∧
        ordinals.Pairwise (· < ·) := by
  have ht : shadows.wellTyped = true := by decide +kernel
  have hg : FlowGraph.ofTree (.ok true) shadows = .ok (graph shadows) :=
    ofTree_eq (by decide +kernel)
  obtain ⟨params, locals, ordinals, hok, -, -, -, -, hfirst, hsorted⟩ :=
    FlowGraph.locals_in_order ht hg
  have hall : shadows.bindings.map (·.map fun b => (b.name, b.isParameter)) =
      .ok [(.str "x", true), (.str "i", false), (.str "a", false), (.str "b", false)] := by
    with_unfolding_all rfl
  rw [hok] at hall
  exact ⟨ht, hg, params, locals, ordinals, hok, Except.ok.inj hall, hfirst, hsorted⟩

end Sample

end LastUse
