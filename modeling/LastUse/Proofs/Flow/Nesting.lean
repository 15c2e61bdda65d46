import LastUse.Proofs.Flow.Layout

/-!
# How regions are nested

Every statement that is read from a tree stands at its place in the tree (`Stmt.At`). The regions
of a function are sequences of sites, branches, loops and whole `return` statements, each of which
ends at the point where it leaves the function (`Nested`). A site belongs to a `return` exactly if
the tree holds one at the place of its statement (`FlowGraph.inReturn_eq_returnsAt`), so no other
site shares that place.
-/

namespace LastUse

/-! ## Places of statements -/

namespace Value

/-- The value of a field of a node. -/
def field? (k : Kind) (fields : List Value) (name : String) : Option Value :=
  ((k.fields.map (·.name)).zip fields).lookup name

/-- The value at a place. -/
def get? (root : Value) : Path → Option Value
  | .root => some root
  | .field p name =>
    match root.get? p with
    | some (.node k fields) => field? k fields name
    | _ => none
  | .item p i =>
    match root.get? p with
    | some (.list items) => items[i]?
    | _ => none

/-- Whether there is a `return` at a place. -/
def returnsAt (root : Value) (p : Path) : Bool :=
  match root.get? p with
  | some (.node .ret _) => true
  | _ => false

/-- The statements at some places are returns exactly where a tree has one. -/
def Agrees (root : Value) (hosts : List (Path × Bool)) : Prop :=
  ∀ h ∈ hosts, h.2 = root.returnsAt h.1

variable {root : Value} {p : Path} {k : Kind} {fields : List Value}

/-- The value at a field of a place is the field of the node there. -/
theorem get?_field {name : String} {v : Value} (hp : root.get? p = some (.node k fields))
    (hf : field? k fields name = some v) : root.get? (p.field name) = some v := by
  simp only [get?, hp, hf]

/-- The value at an item of a place is the item of the list there. -/
theorem get?_item {items : List Value} (hp : root.get? p = some (.list items)) (i : Nat) :
    root.get? (p.item i) = items[i]? := by
  simp only [get?, hp]

namespace Agrees

variable {a b : List (Path × Bool)}

/-- A tree agrees with no places at all. -/
theorem nil : root.Agrees [] := by simp [Agrees]

/-- A tree that agrees with some places and with others agrees with all of them. -/
theorem append (ha : root.Agrees a) (hb : root.Agrees b) : root.Agrees (a ++ b) := by
  intro h hm
  exact (List.mem_append.1 hm).elim (ha h) (hb h)

/-- A statement that is no `return`, and those in it. -/
theorem cons (hp : root.get? p = some (.node k fields)) (hk : k ≠ .ret) (ha : root.Agrees a) :
    root.Agrees ((p, false) :: a) := by
  intro h hm
  rcases List.mem_cons.1 hm with rfl | hm
  · cases k <;> simp_all [returnsAt]
  · exact ha h hm

/-- A tree agrees with the place of a `return` in it. -/
theorem ret (hp : root.get? p = some (.node .ret fields)) : root.Agrees [(p, true)] := by
  simp [Agrees, returnsAt, hp]

end Agrees

end Value

namespace Stmt

mutual

/-- The places of the statements that have sites, with whether each is a `return`. -/
def hosts : Stmt → List (Path × Bool)
  | .absent | .stray _ | .unlisted | .misnamed _ => []
  | .block _ body | .caseArm _ _ body => hostsAll body
  | .exprStmt p _ | .decl p _ _ | .goto p _ | .brk p | .cont p => [(p, false)]
  | .ret p _ => [(p, true)]
  | .ifElse p _ thenArm elseArm => (p, false) :: (thenArm.hosts ++ elseArm.hosts)
  | .whileLoop p _ body | .doWhile p body _ | .foreach p _ _ body | .labeled p _ body =>
    (p, false) :: body.hosts
  | .forLoop p before _ _ _ body => (p, false) :: (before.hosts ++ body.hosts)
  | .switch p _ arms => (p, false) :: hostsAll arms

/-- The places of the statements among several that have sites. -/
def hostsAll : List Stmt → List (Path × Bool)
  | [] => []
  | s :: rest => s.hosts ++ hostsAll rest

end

/-- A tree agrees with a statement that has a name, whatever text the name is. -/
theorem agrees_named {root : Value} {k : Kind} {name : Value} {make : String → Stmt}
    (h : ∀ s, root.Agrees (make s).hosts) : root.Agrees (named k name make).hosts := by
  unfold named
  split
  · exact h _
  · exact .nil

/-- What is no statement has no sites. -/
theorem hostsAll_strays {α : Type} (type : String) (items : List α) :
    hostsAll (items.map fun _ => .stray type) = [] := by
  induction items with
  | nil => rfl
  | cons _ rest ih => rw [List.map_cons, hostsAll, hosts, ih, List.append_nil]

/-- The statements that are read from a tree are returns exactly where the tree has one. -/
theorem agrees (root : Value) :
    (∀ p v, root.get? p = some v → root.Agrees (ofValue p v).hosts) ∧
    (∀ p v, root.get? p = some v → root.Agrees (hostsAll (ofList p v))) ∧
    ∀ p i rest, (∀ j, root.get? (p.item (i + j)) = rest[j]?) →
      root.Agrees (hostsAll (ofItems p i rest)) := by
  apply ofValue.mutual_induct
  case case1 | case3 | case23 => intros; exact .nil
  case case4 =>
    intro p body ih hp
    exact ih (Value.get?_field hp rfl)
  case case5 | case17 | case18 =>
    intro p _ hp
    exact .cons hp nofun .nil
  case case6 =>
    intro p name init hp
    exact agrees_named fun _ => .cons hp nofun .nil
  case case7 =>
    intro p cond thenArm elseArm iht ihe hp
    exact .cons hp nofun (.append (iht (Value.get?_field hp rfl)) (ihe (Value.get?_field hp rfl)))
  case case8 | case9 =>
    intro p _ _ ih hp
    exact .cons hp nofun (ih (Value.get?_field hp rfl))
  case case10 =>
    intro p init cond step body ihi ihb hp
    refine .cons hp nofun (.append ?_ (ihb (Value.get?_field hp rfl)))
    split
    · exact ihi (Value.get?_field hp rfl)
    · exact .nil
  case case11 =>
    intro p var iterable body ih hp
    exact agrees_named fun _ => .cons hp nofun (ih (Value.get?_field hp rfl))
  case case12 =>
    intro p subject cases ih hp
    exact .cons hp nofun (ih (Value.get?_field hp rfl))
  case case13 =>
    intro p values body ih hp
    exact ih (Value.get?_field hp rfl)
  case case14 =>
    intro p label body ih hp
    exact agrees_named fun _ => .cons hp nofun (ih (Value.get?_field hp rfl))
  case case15 =>
    intro p label hp
    exact agrees_named fun _ => .cons hp nofun .nil
  case case16 =>
    intro p value hp
    exact .ret hp
  case case2 | case19 =>
    intros
    rw [ofValue] <;> first | exact .nil | assumption
  case case20 =>
    intro p items ih hp
    exact ih fun j => by rw [Nat.zero_add, Value.get?_item hp]
  case case21 =>
    intro p s _
    rw [ofList, hostsAll_strays]
    exact .nil
  case case22 =>
    intros
    rw [ofList] <;> first | exact .nil | assumption
  case case24 =>
    intro p i v rest ihv ihr hp
    refine .append (ihv (by simpa using hp 0)) (ihr fun j => ?_)
    have hj := hp (j + 1)
    rwa [List.getElem?_cons_succ, ← Nat.add_assoc, Nat.add_right_comm] at hj

mutual

/-- A statement stands at a place, and those in it stand in its fields. -/
def At (p : Path) : Stmt → Prop
  | .absent | .stray _ | .unlisted | .misnamed _ => True
  | .block q body | .caseArm q _ body => q = p ∧ AtAll (p.field "body") 0 body
  | .exprStmt q _ | .decl q _ _ | .goto q _ | .ret q _ | .brk q | .cont q => q = p
  | .ifElse q _ thenArm elseArm =>
    q = p ∧ thenArm.At (p.field "then") ∧ elseArm.At (p.field "orelse")
  | .whileLoop q _ body | .doWhile q body _ | .foreach q _ _ body =>
    q = p ∧ body.At (p.field "body")
  | .forLoop q before _ _ _ body => q = p ∧ before.At (p.field "init") ∧ body.At (p.field "body")
  | .switch q _ arms => q = p ∧ AtAll (p.field "cases") 0 arms
  | .labeled q _ body => q = p ∧ body.At (p.field "stmt")

/-- Statements stand at the items of a place, from an index on. -/
def AtAll (p : Path) (i : Nat) : List Stmt → Prop
  | [] => True
  | s :: rest => s.At (p.item i) ∧ AtAll p (i + 1) rest

end

/-- A statement that has a name stands where it does for every text. -/
theorem at_named {p : Path} {k : Kind} {name : Value} {make : String → Stmt}
    (h : ∀ s, (make s).At p) : (named k name make).At p := by
  unfold named
  split
  · exact h _
  · exact trivial

/-- Strays stand anywhere. -/
theorem atAll_strays {α : Type} {p : Path} (type : String) (items : List α) (i : Nat) :
    AtAll p i (items.map fun _ => .stray type) := by
  induction items generalizing i with
  | nil => exact trivial
  | cons _ rest ih => exact ⟨trivial, ih (i + 1)⟩

/-- The statements that are read from a value stand where the value has them. -/
theorem at_ofValue :
    (∀ (p : Path) (v : Value), (ofValue p v).At p) ∧
    (∀ (p : Path) (v : Value), AtAll p 0 (ofList p v)) ∧
    ∀ (p : Path) (i : Nat) (rest : List Value), AtAll p i (ofItems p i rest) := by
  apply ofValue.mutual_induct
  case case1 | case3 | case23 => intros; exact trivial
  case case4 | case8 | case9 | case12 | case13 =>
    intros
    exact ⟨rfl, by assumption⟩
  case case5 | case16 | case17 | case18 => intros; rfl
  case case6 | case15 =>
    intros
    exact at_named fun _ => rfl
  case case7 =>
    intro p cond thenArm elseArm iht ihe
    exact ⟨rfl, iht, ihe⟩
  case case10 =>
    intro p init cond step body ihi ihb
    refine ⟨rfl, ?_, ihb⟩
    split
    · exact ihi
    · exact trivial
  case case11 =>
    intro p var iterable body ih
    exact at_named fun _ => ⟨rfl, ih⟩
  case case14 =>
    intro p label body ih
    exact at_named fun _ => ⟨rfl, ih⟩
  case case2 | case19 =>
    intros
    rw [ofValue] <;> first | exact trivial | assumption
  case case20 =>
    intro p items ih
    exact ih
  case case21 =>
    intro p s
    exact atAll_strays _ _ 0
  case case22 =>
    intros
    rw [ofList] <;> first | exact ⟨trivial, trivial⟩ | assumption
  case case24 =>
    intro p i v rest ihv ihr
    exact ⟨ihv, ihr⟩

end Stmt

/-! ## Nested regions -/

/-- A site with an ordinal belongs to the statement at a place, which is a `return` or not. -/
def Stands (sites : List Site) (o : Nat) (p : Path) (ret : Bool) : Prop :=
  ∃ s ∈ sites, s.ordinal = o ∧ s.stmt = p ∧ s.inReturn = ret

/-- The regions of whole statements. `stands` tells which statement a site belongs to and whether
that is a `return`. -/
inductive Nested (stands : Nat → Path → Bool → Prop) : List Region → Prop
  | nil : Nested stands []
  | site {o : Nat} {p : Path} {rest : List Region} : stands o p false → Nested stands rest →
      Nested stands (.site o :: rest)
  | branch {p : Path} {arms : List (List Region)} {rest : List Region} :
      (∀ arm ∈ arms, Nested stands arm) → Nested stands rest →
        Nested stands (.branch p arms :: rest)
  | loop {p : Path} {body rest : List Region} : Nested stands body → Nested stands rest →
      Nested stands (.loop p body :: rest)
  | ret {p : Path} {ordinals : List Nat} {rest : List Region} : ordinals ≠ [] →
      (∀ o ∈ ordinals, stands o p true) → Nested stands rest →
      Nested stands (ordinals.map .site ++ .ret p :: rest)

namespace Nested

variable {stands stands' : Nat → Path → Bool → Prop} {a b : List Region} {p : Path}

/-- More may be known of where sites stand. -/
theorem mono (h : Nested stands a) (hs : ∀ o p r, stands o p r → stands' o p r) :
    Nested stands' a := by
  induction h with
  | nil => exact .nil
  | site ho _ ih => exact .site (hs _ _ _ ho) ih
  | branch _ _ iha ihr => exact .branch iha ihr
  | loop _ _ ihb ihr => exact .loop ihb ihr
  | ret hne ho _ ih => exact .ret hne (fun o hm => hs _ _ _ (ho o hm)) ih

/-- Whole statements behind whole statements are whole statements. -/
theorem append (ha : Nested stands a) (hb : Nested stands b) : Nested stands (a ++ b) := by
  induction ha with
  | nil => exact hb
  | site ho _ ih => exact .site ho ih
  | branch harms _ _ ih => exact .branch harms ih
  | loop hbody _ _ ih => exact .loop hbody ih
  | ret hne ho _ ih =>
    rw [List.append_assoc, List.cons_append]
    exact .ret hne ho ih

/-- Sites outside of a `return` are whole statements. -/
theorem sites {ordinals : List Nat} (h : ∀ o ∈ ordinals, stands o p false) :
    Nested stands (ordinals.map .site) := by
  induction ordinals with
  | nil => exact .nil
  | cons o rest ih =>
    exact .site (h o List.mem_cons_self) (ih fun o ho => h o (List.mem_cons_of_mem _ ho))

end Nested

/-- The regions of a draft are those of whole statements at some places. -/
structure Draft.Nests (hosts : List (Path × Bool)) (d : Draft) : Prop where
  hosts : ∀ s ∈ d.sites, (s.stmt, s.inReturn) ∈ hosts
  region : Nested (Stands d.sites) d.region

namespace Draft.Nests

variable {x y : List (Path × Bool)} {a b d : Draft} {h : Host} {n : Nat} {p : Path}

/-- An empty draft has no regions. -/
theorem empty : Nests [] {} := ⟨by simp, .nil⟩

/-- There may be more places of statements. -/
theorem mono (hd : d.Nests x) (hs : ∀ h ∈ x, h ∈ y) : d.Nests y :=
  ⟨fun s hm => hs _ (hd.hosts s hm), hd.region⟩

/-- The sites of two drafts, where those of the first may be nested anew. -/
theorem stands_append {o : Nat} {p : Path} {ret : Bool} :
    Stands (a.sites ++ b.sites) o p ret ↔ Stands a.sites o p ret ∨ Stands b.sites o p ret := by
  simp only [Stands, List.mem_append]
  grind

/-- Two drafts of whole statements make one. -/
theorem append (ha : a.Nests x) (hb : b.Nests y) : (a ++ b).Nests (x ++ y) where
  hosts s hs := by
    rw [sites_append, List.mem_append] at hs
    exact List.mem_append.2 (hs.imp (ha.hosts s) (hb.hosts s))
  region := (ha.region.mono fun _ _ _ h => stands_append.2 (.inl h)).append
    (hb.region.mono fun _ _ _ h => stands_append.2 (.inr h))

/-- A draft with the same sites, whose regions are nested anew. -/
theorem congr (hd : d.Nests x) (hs : b.sites = d.sites) (hr : Nested (Stands d.sites) b.region) :
    b.Nests x :=
  ⟨by rw [hs]; exact hd.hosts, by rw [hs]; exact hr⟩

/-- The sites of a single statement stand at its place. -/
theorem stands_of_hosted (hd : d.Hosted h n) {o : Nat} (ho : o ∈ d.sites.map (·.ordinal)) :
    Stands d.sites o h.stmt h.inReturn := by
  obtain ⟨s, hs, rfl⟩ := List.mem_map.1 ho
  exact ⟨s, hs, rfl, (hd.host s hs).1, (hd.host s hs).2.2⟩

/-- The draft of the expressions of a statement that is no `return`. -/
theorem of_hosted (hd : d.Hosted h n) (hr : h.inReturn = false) : d.Nests [(h.stmt, false)] where
  hosts s hs := by
    obtain ⟨hstmt, -, hret⟩ := hd.host s hs
    simp [hstmt, hret, hr]
  region := by
    rw [hd.region]
    exact .sites fun o ho => hr ▸ stands_of_hosted hd ho

/-- The draft of the expressions of a `return`, up to the point where it leaves the function. -/
theorem of_return (hd : d.Hosted h n) (hr : h.inReturn = true) (hne : d.sites ≠ [])
    (hs : b.sites = d.sites) (hreg : b.region = d.region ++ [.ret h.stmt]) :
    b.Nests [(h.stmt, true)] where
  hosts s hm := by
    obtain ⟨hstmt, -, hret⟩ := hd.host s (hs ▸ hm)
    simp [hstmt, hret, hr]
  region := by
    rw [hreg, hs, hd.region]
    exact .ret (by simpa using hne) (fun o ho => hr ▸ stands_of_hosted hd ho) .nil

/-- The draft of a statement with one site that is no `return`. -/
theorem of_site {s : Site} (hd : d.sites = [s]) (hp : s.stmt = p) (hr : s.inReturn = false)
    (hreg : d.region = [.site s.ordinal]) : d.Nests [(p, false)] where
  hosts t ht := by
    rw [hd, List.mem_singleton] at ht
    simp [ht, hp, hr]
  region := by
    rw [hd, hreg]
    exact .site ⟨s, List.mem_singleton_self s, rfl, hp, hr⟩ .nil

/-- A loop, from its statements and the edges that lead back. -/
theorem asLoop (hd : d.Nests x) {back : List Edge} :
    (((d ++ Draft.ofEdges back).asLoop p).withoutBreaks.withoutContinues).Nests x := by
  refine hd.congr (by simp [Draft.asLoop, withoutBreaks, withoutContinues, ofEdges]) ?_
  simp only [Draft.asLoop, withoutBreaks, withoutContinues, ofEdges, region_append,
    List.append_nil]
  exact .loop hd.region .nil

end Draft.Nests

/-- Every flow through a statement has the regions of whole statements. -/
theorem Stmt.nests : Stmt.FlowInvariant (fun _ s _ _ r => r.draft.Nests s.hosts)
    (fun _ ss _ _ r => r.draft.Nests (hostsAll ss))
    (fun _ cases _ _ _ a => (∀ s ∈ a.draft.sites, (s.stmt, s.inReturn) ∈ hostsAll cases) ∧
      ∀ arm ∈ a.arms, Nested (Stands a.draft.sites) arm) where
  absent := .empty
  block hr := hr
  exprStmt hh := .of_hosted (Head.Laid.optional hh).hosted rfl
  decl hh := .of_hosted (Head.Laid.optional hh).hosted rfl
  ifElse {_ p _ _ _ _ _ _ _ yes no} hh hy hn := by
    have hh := Draft.Nests.of_hosted (Head.Laid.evaluating hh).hosted rfl
    refine hh.append ((hy.append hn).congr rfl (.branch (fun arm ha => ?_) .nil))
    simp only [List.mem_cons, List.not_mem_nil, or_false] at ha
    rcases ha with rfl | rfl
    · exact hy.region.mono fun _ _ _ h => Draft.Nests.stands_append.2 (.inl h)
    · exact hn.region.mono fun _ _ _ h => Draft.Nests.stands_append.2 (.inr h)
  whileLoop hh hb := by
    have hh := Draft.Nests.of_hosted (Head.Laid.loop hh).hosted rfl
    exact ((hh.append hb).append .empty).asLoop.mono (by simp [hosts, headerHost])
  forLoop hf hst hd hh hb hs := by
    have hst := Draft.Nests.of_hosted (Passage.Evaluates.init hst).hosted rfl
    have hh := Draft.Nests.of_hosted (Head.Laid.loop hh).hosted rfl
    have hs := Draft.Nests.of_hosted (Passage.Evaluates.step hs).hosted rfl
    refine ((hf.append hst).append ((hh.append hb).append hs).asLoop).mono fun h hm => ?_
    simp only [hosts, List.mem_append, List.mem_cons, List.not_mem_nil, or_false] at hm ⊢
    grind [headerHost, plainHost]
  foreach hh hb := by
    have hh := Draft.Nests.of_hosted (Head.Laid.evaluating hh).hosted rfl
    exact ((hh.append hb).append .empty).asLoop.mono (by simp [hosts, headerHost])
  doWhile hb hh := by
    have hh := Draft.Nests.of_hosted (Head.Laid.loop hh).hosted rfl
    refine (hb.append hh).asLoop.mono fun h hm => ?_
    simp only [hosts, List.mem_append, List.mem_cons, List.not_mem_nil, or_false] at hm ⊢
    exact hm.symm
  switch {_ _ _ _ _ _ _ _ arms} hh ha := by
    have hh := Draft.Nests.of_hosted (Head.Laid.evaluating hh).hosted rfl
    refine hh.append ⟨ha.1, .branch (fun arm hm => ?_) .nil⟩
    split at hm
    · exact ha.2 arm hm
    · rcases List.mem_append.1 hm with hm | hm
      · exact ha.2 arm hm
      · cases List.mem_singleton.1 hm
        exact .nil
  labeled {sc p label text _ c fr _} _ hb := by
    have hl : (labelDraft sc p label text c.next fr).Nests [(p, false)] := .of_site rfl rfl rfl rfl
    exact hl.append hb
  goto := .of_site rfl rfl rfl rfl
  ret hh _ := .of_return (Head.Laid.optional hh).hosted rfl (headed_of_optional hh).sites_ne_nil
    (by simp [closeReturn]) (by simp [closeReturn])
  brk _ := .of_site rfl rfl rfl rfl
  cont _ := .of_site rfl rfl rfl rfl
  nil := .empty
  cons hf hl := hf.append hl
  noArms := ⟨by simp, by simp⟩
  arm {_ _ _ _ _ _ _ _ first later} hf hl := by
    have hfirst : Nested (Stands (first.draft.sites ++ later.draft.sites)) first.draft.region :=
      hf.region.mono fun _ _ _ h => Draft.Nests.stands_append.2 (.inl h)
    have hlater :
        ∀ arm ∈ later.arms, Nested (Stands (first.draft.sites ++ later.draft.sites)) arm :=
      fun arm ha => (hl.2 arm ha).mono fun _ _ _ h => Draft.Nests.stands_append.2 (.inr h)
    constructor
    · intro s hs
      rcases List.mem_append.1 hs with hs | hs
      · exact List.mem_append_left _ (hf.hosts s hs)
      · exact List.mem_append_right _ (hl.1 s hs)
    · intro arm ha
      simp only [Arms.cons] at ha
      split at ha
      · next hn =>
        rcases List.mem_cons.1 ha with rfl | ha
        · exact hfirst.append (hlater _ (by simp [hn]))
        · exact hlater arm (by simp [hn, ha])
      · rcases List.mem_cons.1 ha with rfl | ha
        · exact hfirst
        · exact hlater arm ha

namespace FlowGraph

variable {exitEdges : Except Fault Bool} {tree : Value} {g : FlowGraph}

/-- The regions of a flow graph are those of whole statements. -/
theorem nested_of_ofTree (h : ofTree exitEdges tree = .ok g) :
    Nested (Stands g.sites) g.region := by
  obtain ⟨whole, hg⟩ := exists_drafted (ofBody_of_ofTree h)
  have hw := Stmt.nests.flow hg.flow
  rw [hg.region]
  refine hw.region.mono fun o p ret hs => ?_
  obtain ⟨s, hs, hso⟩ := hs
  rw [hg.sites]
  exact ⟨_, List.mem_map.2 ⟨s, hs, rfl⟩, hso⟩

/-- The statements of a function are returns exactly where its tree has one. -/
theorem agrees_bodyOf (tree : Value) : tree.Agrees (bodyOf tree).hosts := by
  unfold bodyOf
  split
  · exact (Stmt.agrees _).1 _ _ (Value.get?_field (p := .root) rfl rfl)
  · exact .nil

/-- The statements of a function stand in its body. -/
theorem at_bodyOf (tree : Value) : (bodyOf tree).At (Path.root.field "body") := by
  unfold bodyOf
  split
  · exact Stmt.at_ofValue.1 _ _
  · exact trivial

/-- A site belongs to a `return` exactly if the tree has one at the place of its statement. -/
theorem inReturn_eq_returnsAt (h : ofTree exitEdges tree = .ok g) {s : Site} (hs : s ∈ g.sites) :
    s.inReturn = tree.returnsAt s.stmt := by
  obtain ⟨whole, hg⟩ := exists_drafted (ofBody_of_ofTree h)
  rw [hg.sites] at hs
  obtain ⟨t, ht, rfl⟩ := List.mem_map.1 hs
  exact agrees_bodyOf tree _ ((Stmt.nests.flow hg.flow).hosts t ht)

/-- The sites of one statement belong to a `return` together. -/
theorem inReturn_of_stmt (h : ofTree exitEdges tree = .ok g) {s t : Site} (hs : s ∈ g.sites)
    (ht : t ∈ g.sites) (he : s.stmt = t.stmt) : s.inReturn = t.inReturn := by
  rw [inReturn_eq_returnsAt h hs, inReturn_eq_returnsAt h ht, he]

end FlowGraph

end LastUse
