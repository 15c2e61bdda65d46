import Mathlib.Order.Bounds.Defs
import LastUse.Proofs.Candidate
import LastUse.Proofs.Tree.Evaluated

/-!
# The last accesses of returns

The frozen sites of a verdict are the last accesses of the `return` statements of the tree, one for
each `return` that accesses the binding (`FlowGraph.frozen_iff_greatest`). Every statement has a
place of its own (`Stmt.spread`), so the regions of a function leave it once for each `return`
(`FlowGraph.nodup_returns`), and there a sweep freezes the last access of that `return`
(`Nested.froze`). From such an access control gets to no other one, as it stays in the `return`
until it leaves the function (`FlowGraph.home_of_path`).
-/

namespace LastUse

open Relation (TransGen)

/-! ## Each statement has its own place -/

/-- A place is below an item of a list from an index on. -/
def Path.From (p : Path) (i : Nat) (q : Path) : Prop := ∃ j, i ≤ j ∧ (p.item j).Under q

/-- What is below an item of a field is below the node. -/
theorem Path.From.under {p q : Path} {name : String} {i : Nat} (h : (p.field name).From i q) :
    p.Under q := by
  obtain ⟨j, -, hq⟩ := h
  exact hq.of_item.of_field

/-- Statements have distinct places, all of them below a place. -/
def Path.Spread (p : Path) (hosts : List (Path × Bool)) : Prop :=
  (hosts.map (·.1)).Nodup ∧ ∀ h ∈ hosts, p.Under h.1

namespace Path.Spread

variable {p : Path} {a b : String} {i : Nat} {ret : Bool} {x y : List (Path × Bool)}

/-- No statements have distinct places. -/
theorem nil : p.Spread [] := ⟨List.nodup_nil, nofun⟩

/-- A single statement has a place of its own. -/
theorem single : p.Spread [(p, ret)] :=
  ⟨by simp, by simpa using Under.refl p⟩

/-- Statements below a field of a statement are below the statement. -/
theorem of_field (h : (p.field a).Spread x) : p.Spread x := ⟨h.1, fun q hq => (h.2 q hq).of_field⟩

/-- Statements in two parts of a place. -/
theorem append (hx : p.Spread x) (hy : p.Spread y)
    (hxy : ∀ h ∈ x, ∀ h' ∈ y, h.1 ≠ h'.1) : p.Spread (x ++ y) := by
  constructor
  · rw [List.map_append, List.nodup_append]
    refine ⟨hx.1, hy.1, ?_⟩
    intro q hq q' hq'
    obtain ⟨h, hm, rfl⟩ := List.mem_map.1 hq
    obtain ⟨h', hm', rfl⟩ := List.mem_map.1 hq'
    exact hxy h hm h' hm'
  · intro h hm
    exact (List.mem_append.1 hm).elim (hx.2 h) (hy.2 h)

/-- A statement and those in one of its fields. -/
theorem cons (h : (p.field a).Spread x) : p.Spread ((p, ret) :: x) := by
  refine single.append (y := x) h.of_field ?_
  rintro _ hm h' hm' he
  cases List.mem_singleton.1 hm
  have hu := h.2 h' hm'
  rw [← he] at hu
  exact not_field_under hu

/-- A statement and those in two of its fields. -/
theorem cons_append (hab : a ≠ b) (hx : (p.field a).Spread x) (hy : (p.field b).Spread y) :
    p.Spread ((p, ret) :: (x ++ y)) := by
  refine hx.cons.append hy.of_field ?_
  rintro h hm h' hm' he
  have hu := hy.2 h' hm'
  rw [← he] at hu
  rcases List.mem_cons.1 hm with rfl | hm
  · exact not_field_under hu
  · exact hab ((hx.2 h hm).field_inj hu)

/-- The statements at an item of a list and at later ones. -/
theorem items (hx : (p.item i).Spread x) (hy : p.Spread y) (hlater : ∀ h ∈ y, p.From (i + 1) h.1) :
    p.Spread (x ++ y) ∧ ∀ h ∈ x ++ y, p.From i h.1 := by
  constructor
  · refine append ⟨hx.1, fun h hm => (hx.2 h hm).of_item⟩ hy ?_
    intro h hm h' hm' he
    obtain ⟨j, hij, hu⟩ := hlater h' hm'
    rw [← he] at hu
    have := (hx.2 h hm).item_inj hu
    omega
  · intro h hm
    rcases List.mem_append.1 hm with hm | hm
    · exact ⟨i, Nat.le_refl i, hx.2 h hm⟩
    · obtain ⟨j, hij, hu⟩ := hlater h hm
      exact ⟨j, Nat.le_of_succ_le hij, hu⟩

end Path.Spread

namespace Stmt

mutual

/-- Statements that stand in the fields of one another have distinct places. -/
theorem spread : ∀ {s : Stmt} {p : Path}, s.At p → p.Spread s.hosts
  | .absent, _, _ | .stray _, _, _ | .unlisted, _, _ | .misnamed _, _, _ => .nil
  | .block .., _, h | .caseArm .., _, h => (spreadAll h.2).1.of_field
  | .exprStmt .., _, h | .decl .., _, h | .goto .., _, h | .ret .., _, h | .brk _, _, h
  | .cont _, _, h => by
    cases h
    exact .single
  | .ifElse .., _, h => by
    obtain ⟨rfl, hy, hn⟩ := h
    exact .cons_append (by decide) (spread hy) (spread hn)
  | .whileLoop .., _, h | .doWhile .., _, h | .foreach .., _, h | .labeled .., _, h => by
    obtain ⟨rfl, hb⟩ := h
    exact .cons (spread hb)
  | .forLoop .., _, h => by
    obtain ⟨rfl, hi, hb⟩ := h
    exact .cons_append (by decide) (spread hi) (spread hb)
  | .switch .., _, h => by
    obtain ⟨rfl, ha⟩ := h
    exact .cons (spreadAll ha).1

/-- The statements in a list have distinct places, those of each below its item. -/
theorem spreadAll : ∀ {ss : List Stmt} {p : Path} {i : Nat}, AtAll p i ss →
    p.Spread (hostsAll ss) ∧ ∀ h ∈ hostsAll ss, p.From i h.1
  | [], _, _, _ => ⟨.nil, by simp [hostsAll]⟩
  | _ :: _, _, _, h => by
    obtain ⟨hrest, hlater⟩ := spreadAll h.2
    exact (spread h.1).items hrest hlater

end

end Stmt

/-! ## The returns among regions -/

mutual

/-- The places of the returns that leave the function in a region. -/
def Region.returns : Region → List Path
  | .site _ => []
  | .ret p => [p]
  | .branch _ arms => armReturns arms
  | .loop _ body => returnsAll body

/-- The places of the returns in a sequence of regions. -/
def returnsAll : List Region → List Path
  | [] => []
  | r :: rest => r.returns ++ returnsAll rest

/-- The places of the returns in the arms of a branch. -/
def armReturns : List (List Region) → List Path
  | [] => []
  | arm :: rest => returnsAll arm ++ armReturns rest

end

@[simp] theorem returnsAll_append (a b : List Region) :
    returnsAll (a ++ b) = returnsAll a ++ returnsAll b := by
  induction a with
  | nil => rfl
  | cons r rest ih => simp [returnsAll, ih]

/-- The returns in the arms of a branch are those in each arm. -/
theorem armReturns_eq_flatMap (arms : List (List Region)) :
    armReturns arms = arms.flatMap returnsAll := by
  induction arms with
  | nil => rfl
  | cons arm rest ih => rw [armReturns, List.flatMap_cons, ih]

/-- There are no returns among sites. -/
theorem returnsAll_sites (ordinals : List Nat) : returnsAll (ordinals.map .site) = [] := by
  induction ordinals with
  | nil => rfl
  | cons o rest ih => simp [returnsAll, Region.returns, ih]

/-- A statement's own expressions hold no `return`. -/
theorem Draft.Hosted.returns {h : Host} {n : Nat} {d : Draft} (hd : d.Hosted h n) :
    returnsAll d.region = [] := by
  rw [hd.region, returnsAll_sites]

namespace Stmt

/-- The places of the returns among some statements. -/
def returnsOf (hosts : List (Path × Bool)) : List Path := (hosts.filter (·.2)).map (·.1)

/-- The returns among some statements and further ones are those among both. -/
theorem returnsOf_append (x y : List (Path × Bool)) :
    returnsOf (x ++ y) = returnsOf x ++ returnsOf y := by
  simp [returnsOf]

/-- The returns in a loop are those in its head, its body and its step. -/
theorem returnsAll_closeLoop {p : Path} {n : Nat} {head : Head} {body step : Passage} :
    returnsAll (closeLoop p n head body step).draft.region =
      returnsAll head.draft.region ++ returnsAll body.draft.region ++
        returnsAll step.draft.region := by
  simp [closeLoop, Draft.asLoop, Draft.withoutBreaks, Draft.withoutContinues, Draft.ofEdges,
    returnsAll, Region.returns]

/-- The returns in the arms of a switch are those of the first case, then those of the later
ones. -/
theorem Arms.returns_cons {first : Passage} {isDefault : Bool} {later : Arms} :
    armReturns (Arms.cons first isDefault later).arms =
      returnsAll first.draft.region ++ armReturns later.arms := by
  simp only [Arms.cons]
  split
  · next hn => simp [armReturns, hn]
  · rfl

/-- The regions of a statement leave the function once for each `return` in it. -/
theorem returns_flow :
    FlowInvariant (fun _ s _ _ r => returnsAll r.draft.region = returnsOf s.hosts)
    (fun _ ss _ _ r => returnsAll r.draft.region = returnsOf (hostsAll ss))
    (fun _ arms _ _ _ r => armReturns r.arms = returnsOf (hostsAll arms)) where
  absent := rfl
  block h := h
  exprStmt hh := (Head.Laid.optional hh).hosted.returns
  decl hh := (Head.Laid.optional hh).hosted.returns
  ifElse hh hy hn := by
    simp [Draft.asBranch, (Head.Laid.evaluating hh).hosted.returns, returnsAll, Region.returns,
      armReturns, hy, hn, hosts, returnsOf]
  whileLoop hh hb := by
    simp [returnsAll_closeLoop, (Head.Laid.loop hh).hosted.returns, hb, hosts, returnsOf,
      returnsAll]
  forLoop hf hi _ hh hb hs := by
    simp [returnsAll_closeLoop, (Passage.Evaluates.init hi).hosted.returns,
      (Head.Laid.loop hh).hosted.returns, (Passage.Evaluates.step hs).hosted.returns, hf,
      hb, hosts,
      returnsOf]
  foreach hh hb := by
    simp [returnsAll_closeLoop, (Head.Laid.evaluating hh).hosted.returns, hb, hosts, returnsOf,
      returnsAll]
  doWhile hb hh := by
    simp [closeDoWhile, Draft.asLoop, Draft.withoutBreaks, Draft.withoutContinues, Draft.ofEdges,
      returnsAll, Region.returns, (Head.Laid.loop hh).hosted.returns, hb, hosts, returnsOf]
  switch {_ _ _ _ _ _ _ _ arms} hh ha := by
    have harms : armReturns (if arms.hasDefault then arms.arms else arms.arms ++ [[]]) =
        armReturns arms.arms := by
      split <;> simp [armReturns_eq_flatMap, returnsAll]
    simp [closeSwitch, Draft.asBranch, Draft.withoutBreaks,
      (Head.Laid.evaluating hh).hosted.returns, returnsAll, Region.returns, harms, ha, hosts,
      returnsOf]
  labeled _ hb := by
    simp [labelDraft, Draft.ofSite, returnsAll, Region.returns, hb, hosts, returnsOf]
  goto := rfl
  ret hh _ := by
    simp [closeReturn, (Head.Laid.optional hh).hosted.returns, returnsAll, Region.returns, hosts,
      returnsOf]
  brk _ := rfl
  cont _ := rfl
  nil := rfl
  cons hf hl := by simp [hf, hl, hostsAll, returnsOf]
  noArms := rfl
  arm hf hl := by rw [Arms.returns_cons, hf, hl, hostsAll, hosts, returnsOf_append]

end Stmt

/-! ## What a sweep freezes -/

/-- A site is the last access of its `return` in a sequence of regions. -/
structure Ground.Ends (gr : Ground) (rs : List Region) (o : Nat) : Prop where
  mem : o ∈ ordinalsAll rs
  access : (gr.access o).accesses = true
  inReturn : (gr.access o).inReturn = true
  greatest : ∀ t ∈ ordinalsAll rs, (gr.access t).accesses = true → gr.stmt? t = gr.stmt? o → t ≤ o

/-- No `return` has accesses in both of two sequences of regions. -/
def Ground.Separate (gr : Ground) (a b : List Region) : Prop :=
  ∀ x ∈ ordinalsAll a, ∀ y ∈ ordinalsAll b, (gr.access x).accesses = true →
    (gr.access y).accesses = true → (gr.access x).inReturn = true ∨ (gr.access y).inReturn = true →
    gr.stmt? x ≠ gr.stmt? y

/-- The sites of the arms of a branch are those of all their regions. -/
theorem ordinalsAll_flatten (arms : List (List Region)) :
    ordinalsAll arms.flatten = armOrdinals arms := by
  induction arms with
  | nil => rfl
  | cons arm rest ih => rw [List.flatten_cons, ordinalsAll_append, armOrdinals, ih]

namespace Ground.Ends

variable {gr : Ground} {a b : List Region} {o : Nat}

/-- The last accesses of the returns in two sequences that share none. -/
theorem append (hs : gr.Separate a b) : gr.Ends (a ++ b) o ↔ gr.Ends a o ∨ gr.Ends b o := by
  constructor
  · rintro ⟨hm, ha, hr, hg⟩
    rw [ordinalsAll_append] at hm hg
    refine (List.mem_append.1 hm).imp (fun hm => ⟨hm, ha, hr, ?_⟩) fun hm => ⟨hm, ha, hr, ?_⟩
    · exact fun t ht => hg t (List.mem_append_left _ ht)
    · exact fun t ht => hg t (List.mem_append_right _ ht)
  · rintro (⟨hm, ha, hr, hg⟩ | ⟨hm, ha, hr, hg⟩)
    · refine ⟨by simp [hm], ha, hr, fun t ht hacc he => ?_⟩
      rw [ordinalsAll_append, List.mem_append] at ht
      rcases ht with ht | ht
      · exact hg t ht hacc he
      · exact absurd he.symm (hs o hm t ht ha hacc (.inl hr))
    · refine ⟨by simp [hm], ha, hr, fun t ht hacc he => ?_⟩
      rw [ordinalsAll_append, List.mem_append] at ht
      rcases ht with ht | ht
      · exact absurd he (hs t ht o hm hacc ha (.inr hr))
      · exact hg t ht hacc he

/-- Only the sites of a sequence matter. -/
theorem congr (ho : ordinalsAll a = ordinalsAll b) : gr.Ends a o ↔ gr.Ends b o := by
  constructor
  · rintro ⟨hm, ha, hr, hg⟩
    exact ⟨ho ▸ hm, ha, hr, ho ▸ hg⟩
  · rintro ⟨hm, ha, hr, hg⟩
    exact ⟨ho ▸ hm, ha, hr, ho ▸ hg⟩

end Ground.Ends

/-- The last element of a list alone is a part of it. -/
theorem getLast?_sublist (l : List Nat) : l.getLast?.toList.Sublist l := by
  cases hl : l.getLast? with
  | none => exact List.nil_sublist _
  | some o =>
    obtain ⟨before, rfl⟩ := List.getLast?_eq_some_iff.1 hl
    exact List.sublist_append_right _ _

/-- The last of some ordinals in order is the greatest. -/
theorem getLast?_eq_some_iff_greatest {l : List Nat} (hl : l.Pairwise (· < ·)) {o : Nat} :
    l.getLast? = some o ↔ o ∈ l ∧ ∀ t ∈ l, t ≤ o := by
  constructor
  · intro ho
    obtain ⟨before, rfl⟩ := List.getLast?_eq_some_iff.1 ho
    rw [List.pairwise_append] at hl
    refine ⟨by simp, fun t ht => ?_⟩
    rcases List.mem_append.1 ht with ht | ht
    · exact Nat.le_of_lt (hl.2.2 t ht o (List.mem_singleton_self o))
    · exact Nat.le_of_eq (List.mem_singleton.1 ht)
  · rintro ⟨ho, hg⟩
    obtain ⟨before, behind, rfl⟩ := List.append_of_mem ho
    rw [List.pairwise_append, List.pairwise_cons] at hl
    cases behind with
    | nil => exact List.getLast?_eq_some_iff.2 ⟨before, rfl⟩
    | cons t rest =>
      have hlt := hl.2.1.1 t List.mem_cons_self
      have hle := hg t (by simp)
      omega

/-- The last accesses of the returns in a sequence of regions, in order. -/
structure Ground.Freezes (gr : Ground) (rs : List Region) (frozen : List Nat) : Prop where
  sublist : frozen.Sublist (ordinalsAll rs)
  mem : ∀ o, o ∈ frozen ↔ gr.Ends rs o

namespace Ground.Freezes

variable {gr : Ground} {a b rs : List Region} {x y : List Nat}

/-- Only the sites of a sequence matter. -/
theorem congr (h : gr.Freezes a x) (ho : ordinalsAll a = ordinalsAll b) : gr.Freezes b x :=
  ⟨ho ▸ h.sublist, fun o => (h.mem o).trans (Ends.congr ho)⟩

/-- Regions without an access in a `return`. -/
theorem nil (hn : ∀ o ∈ ordinalsAll rs, (gr.access o).accesses = true →
    (gr.access o).inReturn = false) : gr.Freezes rs [] where
  sublist := List.nil_sublist _
  mem o := by
    refine ⟨nofun, fun h => ?_⟩
    have hr := hn o h.mem h.access
    rw [h.inReturn] at hr
    cases hr

/-- The last accesses of the returns in two sequences are those of the first, then those of the
second, if no `return` is in both. -/
theorem append (ha : gr.Freezes a x) (hb : gr.Freezes b y) (hab : gr.Separate a b) :
    gr.Freezes (a ++ b) (x ++ y) where
  sublist := by
    rw [ordinalsAll_append]
    exact ha.sublist.append hb.sublist
  mem o := by
    rw [Ends.append hab, ← ha.mem, ← hb.mem]
    exact List.mem_append

/-- The last accesses of the returns in the arms of a branch are those of each arm, if no `return`
is in two arms. -/
theorem flatten {arms : List (List Region)} {f : List Region → List Nat}
    (hf : ∀ arm ∈ arms, gr.Freezes arm (f arm)) (hs : arms.Pairwise gr.Separate) :
    gr.Freezes arms.flatten (arms.flatMap f) := by
  induction arms with
  | nil => exact .nil nofun
  | cons arm rest ih =>
    rw [List.pairwise_cons] at hs
    refine (hf arm List.mem_cons_self).append
      (ih (fun x hx => hf x (List.mem_cons_of_mem _ hx)) hs.2) ?_
    intro x hx y hy
    rw [ordinalsAll_flatten] at hy
    obtain ⟨b, hb, hy⟩ := mem_armOrdinals.1 hy
    exact hs.1 b hb x hx y hy

/-- The sites of a whole `return`. -/
theorem ofReturn {ordinals : List Nat} {p : Path} (hs : ordinals.Pairwise (· < ·))
    (hr : ∀ o ∈ ordinals, gr.stmt? o = some p ∧
      ((gr.access o).accesses = true → (gr.access o).inReturn = true)) :
    gr.Freezes (ordinals.map .site ++ [.ret p])
      (ordinals.filter fun o => (gr.access o).accesses).getLast?.toList := by
  have hord : ordinalsAll (ordinals.map .site ++ [.ret p]) = ordinals := by
    simp [ordinalsAll_map_site, ordinalsAll, Region.ordinals]
  have hmem : ∀ {o}, o ∈ ordinals.filter (fun o => (gr.access o).accesses) ↔
      o ∈ ordinals ∧ (gr.access o).accesses = true := List.mem_filter
  have hsub : (ordinals.filter fun o => (gr.access o).accesses).Sublist ordinals :=
    List.filter_sublist
  generalize ordinals.filter (fun o => (gr.access o).accesses) = accessing at hmem hsub
  constructor
  · rw [hord]
    exact (getLast?_sublist accessing).trans hsub
  · intro o
    rw [Option.mem_toList, getLast?_eq_some_iff_greatest (hs.sublist hsub), hmem]
    constructor
    · rintro ⟨⟨ho, hacc⟩, hg⟩
      refine ⟨hord.symm ▸ ho, hacc, (hr o ho).2 hacc, ?_⟩
      rw [hord]
      exact fun t ht hacc' _ => hg t (hmem.2 ⟨ht, hacc'⟩)
    · rintro ⟨hm, hacc, -, hg⟩
      rw [hord] at hm hg
      refine ⟨⟨hm, hacc⟩, fun t ht => ?_⟩
      obtain ⟨ht, hacc'⟩ := hmem.1 ht
      exact hg t ht hacc' ((hr t ht).1.trans (hr o hm).1.symm)

end Ground.Freezes

/-- A site freezes nothing. -/
theorem Sweep.frozen_site (gr : Ground) (o : Nat) (candidate : Option Nat) :
    (Sweep.site gr o candidate).frozen = [] := by
  simp only [Sweep.site]
  split
  · rfl
  · split
    · rfl
    · split <;> rfl

/-- A sweep over a sequence of regions freezes the last access of each `return`, whatever it begins
with. -/
def Ground.Froze (gr : Ground) (rs : List Region) : Prop :=
  ∀ incoming : Option Nat, (∀ c ∈ incoming, gr.Plain c) →
    gr.Freezes rs (sweepAll gr rs incoming).frozen

namespace Ground.Froze

variable {gr : Ground} {stands : Nat → Path → Bool → Prop} {p : Path} {rs a b : List Region}

/-- A sweep over two sequences freezes the last accesses of both. -/
theorem append (ha : gr.Froze a) (hb : gr.Froze b) (ht : gr.Told a) (hab : gr.Separate a b) :
    gr.Froze (a ++ b) := by
  intro incoming hi
  rw [sweepAll_append]
  refine (ha incoming hi).append (hb _ fun c hc => ?_) hab
  rcases ((ht incoming hi).candidate c).1 hc with hf | ⟨hc, -⟩
  · exact hf.plain
  · exact hi c hc

/-- A site outside of a `return` has nothing to freeze. -/
theorem site {o : Nat} (ho : (gr.access o).inReturn = false) : gr.Froze [.site o] := by
  intro incoming _
  rw [sweepAll_singleton, Region.sweep, Sweep.frozen_site]
  refine .nil fun t ht _ => ?_
  rw [ordinalsAll, Region.ordinals] at ht
  rw [List.mem_singleton.1 ht, ho]

/-- A sweep over a loop freezes what one over its body does. -/
theorem loop (hb : gr.Froze rs) : gr.Froze [.loop p rs] := by
  intro incoming hi
  rw [sweepAll_singleton, Region.sweep]
  exact (hb incoming hi).congr (by simp [ordinalsAll, Region.ordinals])

/-- A sweep over a branch freezes what those over its arms do. -/
theorem branch {arms : List (List Region)} (ha : ∀ arm ∈ arms, gr.Froze arm)
    (hs : arms.Pairwise gr.Separate) : gr.Froze [.branch p arms] := by
  intro incoming hi
  rw [sweepAll_singleton, Region.sweep, sweepArms_eq_map, Sweep.ofArms, List.flatMap_map]
  refine (Freezes.flatten (fun arm harm => ha arm harm incoming hi) hs).congr ?_
  simp [ordinalsAll_flatten, ordinalsAll, Region.ordinals]

/-- The candidate behind some sites of a `return` is the last of them that accesses the binding. -/
theorem candidate_sites {ordinals : List Nat} {incoming : Option Nat}
    (ho : ∀ o ∈ ordinals, (gr.access o).accesses = true → (gr.access o).inReturn = true) :
    (sweepAll gr (ordinals.map .site) incoming).candidate =
      (ordinals.filter fun o => (gr.access o).accesses).getLast?.or incoming := by
  induction ordinals generalizing incoming with
  | nil => rfl
  | cons o rest ih =>
    rw [List.map_cons, sweepAll, Region.sweep]
    have ih := fun incoming => @ih incoming fun o hm => ho o (List.mem_cons_of_mem _ hm)
    cases hacc : (gr.access o).accesses with
    | false => simp [Sweep.site, Sweep.andThen, hacc, ih, Sweep.still]
    | true =>
      have hret := ho o List.mem_cons_self hacc
      simp only [Sweep.site, Sweep.andThen, hacc, hret, ih]
      simp [hacc, List.getLast?_cons]

/-- The sweep over a whole `return` freezes its last access. -/
theorem ret {ordinals : List Nat} (h : gr.Fits stands) (hne : ordinals ≠ [])
    (hs : ordinals.Pairwise (· < ·)) (ho : ∀ o ∈ ordinals, stands o p true) :
    gr.Froze (ordinals.map .site ++ [.ret p]) := by
  intro incoming hi
  have hown : ∀ o ∈ ordinals, gr.stmt? o = some p ∧
      ((gr.access o).accesses = true → (gr.access o).inReturn = true) :=
    fun o hm => ⟨h.stmt (ho o hm), h.ret (ho o hm)⟩
  have hsites : (sweepAll gr (ordinals.map .site) incoming).InReturn gr ordinals incoming :=
    h.inReturn_sites ho
  have hc : (sweepAll gr (ordinals.map .site) incoming).candidate =
      (ordinals.filter fun o => (gr.access o).accesses).getLast?.or incoming :=
    candidate_sites fun o hm => (hown o hm).2
  have hf : (sweepAll gr (ordinals.map .site ++ [.ret p]) incoming).frozen =
      (ordinals.filter fun o => (gr.access o).accesses).getLast?.toList := by
    rw [sweepAll_append, sweepAll_singleton, Region.sweep, Sweep.andThen, hsites.frozen, hc]
    cases hl : (ordinals.filter fun o => (gr.access o).accesses).getLast? with
    | some o =>
      have hm := (List.mem_filter.1 (List.mem_of_getLast? hl)).1
      simp [Sweep.leave, (hown o hm).1]
    | none =>
      cases incoming with
      | none => rfl
      | some c =>
        obtain ⟨o, hm⟩ := List.exists_mem_of_ne_nil _ hne
        simp [Sweep.leave, h.apart (ho o hm) (hi c rfl), Sweep.still]
  rw [hf]
  exact .ofReturn hs hown

end Ground.Froze

namespace Nested

variable {gr : Ground} {stands : Nat → Path → Bool → Prop} {a b rs : List Region}

/-- A site among the regions belongs to a statement that is no `return`, or to one of the returns
among them. -/
theorem stands_of_mem (hn : Nested stands rs) {o : Nat} (ho : o ∈ ordinalsAll rs) :
    (∃ p, stands o p false) ∨ ∃ p ∈ returnsAll rs, stands o p true := by
  induction hn with
  | nil => cases ho
  | @site x p rest hx _ ih =>
    rw [ordinalsAll, Region.ordinals, List.singleton_append, List.mem_cons] at ho
    rcases ho with rfl | ho
    · exact .inl ⟨p, hx⟩
    · exact ih ho
  | @branch p arms rest _ _ iha ih =>
    rw [ordinalsAll, Region.ordinals, List.mem_append] at ho
    rw [returnsAll, Region.returns]
    rcases ho with ho | ho
    · obtain ⟨arm, ha, ho⟩ := mem_armOrdinals.1 ho
      refine (iha arm ha ho).imp_right ?_
      rintro ⟨q, hq, hs⟩
      exact ⟨q, List.mem_append_left _ (armReturns_eq_flatMap
        arms ▸ List.mem_flatMap.2 ⟨arm, ha, hq⟩), hs⟩
    · refine (ih ho).imp_right ?_
      rintro ⟨q, hq, hs⟩
      exact ⟨q, List.mem_append_right _ hq, hs⟩
  | @loop p body rest _ _ ihb ih =>
    rw [ordinalsAll, Region.ordinals, List.mem_append] at ho
    rw [returnsAll, Region.returns]
    rcases ho with ho | ho
    · refine (ihb ho).imp_right ?_
      rintro ⟨q, hq, hs⟩
      exact ⟨q, List.mem_append_left _ hq, hs⟩
    · refine (ih ho).imp_right ?_
      rintro ⟨q, hq, hs⟩
      exact ⟨q, List.mem_append_right _ hq, hs⟩
  | @ret p ordinals rest _ hs _ ih =>
    simp only [ordinalsAll_append, ordinalsAll_map_site, ordinalsAll, Region.ordinals,
      List.nil_append, List.mem_append] at ho
    simp only [returnsAll_append, returnsAll_sites, returnsAll, Region.returns, List.nil_append,
      List.singleton_append, List.mem_cons]
    rcases ho with ho | ho
    · exact .inr ⟨p, .inl rfl, hs o ho⟩
    · refine (ih ho).imp_right ?_
      rintro ⟨q, hq, hs⟩
      exact ⟨q, .inr hq, hs⟩

/-- An access in a `return` belongs to one of the returns among the regions. -/
theorem mem_returns (h : gr.Fits stands) (hn : Nested stands rs) {o : Nat}
    (ho : o ∈ ordinalsAll rs) (hr : (gr.access o).inReturn = true) :
    ∃ p ∈ returnsAll rs, stands o p true := by
  rcases hn.stands_of_mem ho with ⟨q, hq⟩ | hp
  · rw [h.plain hq] at hr
    cases hr
  · exact hp

/-- Sequences of whole statements that share no `return` have no accesses of one in both. -/
theorem separate (h : gr.Fits stands) (ha : Nested stands a) (hb : Nested stands b)
    (hab : (returnsAll a).Disjoint (returnsAll b)) : gr.Separate a b := by
  intro x hx y hy hxa hya hr he
  cases hxr : (gr.access x).inReturn with
  | false =>
    have hyr : (gr.access y).inReturn = true := by simpa [hxr] using hr
    obtain ⟨q, -, hs⟩ := hb.mem_returns h hy hyr
    exact h.apart hs ⟨hxa, hxr⟩ (he.trans (h.stmt hs))
  | true =>
    obtain ⟨p, hp, hs⟩ := ha.mem_returns h hx hxr
    cases hyr : (gr.access y).inReturn with
    | false => exact h.apart hs ⟨hya, hyr⟩ (he.symm.trans (h.stmt hs))
    | true =>
      obtain ⟨q, hq, hs'⟩ := hb.mem_returns h hy hyr
      rw [h.stmt hs, h.stmt hs', Option.some.injEq] at he
      exact hab hp (he ▸ hq)

/-- One sequence of whole statements behind another. -/
theorem froze_append (h : gr.Fits stands) (ha : Nested stands a) (hb : Nested stands b)
    (hs : (ordinalsAll (a ++ b)).Pairwise (· < ·)) (hr : (returnsAll (a ++ b)).Nodup)
    (hfa : (ordinalsAll a).Pairwise (· < ·) → (returnsAll a).Nodup → gr.Froze a)
    (hfb : (ordinalsAll b).Pairwise (· < ·) → (returnsAll b).Nodup → gr.Froze b) :
    gr.Froze (a ++ b) := by
  rw [ordinalsAll_append, List.pairwise_append] at hs
  rw [returnsAll_append, List.nodup_append'] at hr
  exact (hfa hs.1 hr.1).append (hfb hs.2.1 hr.2.1) (ha.told h hs.1) (ha.separate h hb hr.2.2)

/-- A sweep over the regions of whole statements freezes the last access of each `return`. -/
theorem froze (h : gr.Fits stands) (hn : Nested stands rs) (hs : (ordinalsAll rs).Pairwise (· < ·))
    (hr : (returnsAll rs).Nodup) : gr.Froze rs := by
  induction hn with
  | nil =>
    intro incoming _
    exact .nil nofun
  | @site o _ rest ho hrest ih =>
    exact froze_append (a := [.site o]) h (.site ho .nil) hrest
      hs hr (fun _ _ => .site (h.plain ho)) ih
  | @branch p arms rest harms hrest iha ih =>
    refine froze_append (a := [.branch p arms]) h (.branch harms .nil)
      hrest hs hr (fun hs hr => ?_) ih
    simp only [ordinalsAll, Region.ordinals, List.append_nil] at hs
    simp only [returnsAll, Region.returns, List.append_nil, armReturns_eq_flatMap,
      List.nodup_flatMap] at hr
    refine .branch (fun arm ha => iha arm ha (pairwise_of_mem_arms hs ha) (hr.1 arm ha)) ?_
    refine hr.2.imp_of_mem fun ha hb hd => ?_
    exact (harms _ ha).separate h (harms _ hb) hd
  | @loop p body rest hbody hrest ihb ih =>
    refine froze_append (a := [.loop p body]) h (.loop hbody .nil) hrest hs hr (fun hs hr => ?_) ih
    simp only [ordinalsAll, Region.ordinals, List.append_nil] at hs
    simp only [returnsAll, Region.returns, List.append_nil] at hr
    exact .loop (ihb hs hr)
  | @ret p ordinals rest hne ho hrest ih =>
    rw [List.append_cons] at hs hr ⊢
    refine froze_append h (.ret hne ho .nil) hrest hs hr (fun hs _ => .ret h hne ?_ ho) ih
    simpa [ordinalsAll_map_site, ordinalsAll, Region.ordinals] using hs

end Nested

/-! ## The frozen sites of a verdict -/

namespace FlowGraph

variable {exitEdges : Except Fault Bool} {tree : Value} {g : FlowGraph} {b : Binding}
  {repeated : List Nat} {o : Nat}

/-- Every `return` leaves the function at one point of the regions. -/
theorem nodup_returns (h : ofTree exitEdges tree = .ok g) : (returnsAll g.region).Nodup := by
  obtain ⟨whole, hg⟩ := exists_drafted (ofBody_of_ofTree h)
  rw [hg.region, Stmt.returns_flow.flow hg.flow]
  exact (Stmt.spread (at_bodyOf tree)).1.sublist (List.filter_sublist.map _)

/-- The sweep over a whole function freezes the last access of each `return`. -/
theorem froze_of_ofTree (h : ofTree exitEdges tree = .ok g) :
    (g.ground (g.scan b) repeated).Froze g.region :=
  (nested_of_ofTree h).froze (fits_of_ofTree h) (laid_of_ofTree h).pairwise_region
    (nodup_returns h)

/-- A path from a `return` stays in it until it leaves the function. -/
theorem home_of_path (h : ofTree exitEdges tree = .ok g) (ho : g.marks.inReturn o = true)
    {v : Vertex} (hp : TransGen g.Leads (.site o) v) :
    v = .exit ∨ ∃ t, v = .site t ∧ g.home t = g.home o := by
  have hg := laid_of_ofTree h
  induction hp with
  | single hl => exact home_of_leads h ho hl
  | tail hp hl ih =>
    obtain ⟨t, rfl⟩ := hg.exists_ordinal hp hl
    obtain ⟨t', ht', hhome⟩ := ih.resolve_left nofun
    cases ht'
    obtain ⟨t', ht', -, hr⟩ := (hg.ahead_of_inReturn ho hp).resolve_left nofun
    cases ht'
    refine (home_of_leads h hr hl).imp_right ?_
    rintro ⟨w, rfl, hw⟩
    exact ⟨w, rfl, hw.trans hhome⟩

/-- The last access of a `return` in the regions is the last of the sites of a `return` of the tree
that access the binding. -/
theorem ends_iff (h : ofTree exitEdges tree = .ok g) :
    (g.ground (g.scan b) repeated).Ends g.region o ↔
      ∃ p, tree.returnsAt p = true ∧ IsGreatest {t | t ∈ g.stmtSites p ∧ g.Accesses b t} o := by
  have hg := laid_of_ofTree h
  have hmem : ∀ {p t}, t ∈ g.stmtSites p ↔ ∃ s ∈ g.sites, s.ordinal = t ∧ s.stmt = p := by
    simp [stmtSites, and_assoc, and_comm]
  constructor
  · rintro ⟨hm, hacc, hr, hgreatest⟩
    have ho := hg.scan_accesses.1 hacc
    have hr : g.marks.inReturn o = true := (hg.scan_inReturn ho).symm.trans hr
    obtain ⟨s, hs, rfl, -⟩ := id ho
    rw [(marks_of_sites hg.sites s hs).2, inReturn_eq_returnsAt h hs] at hr
    refine ⟨s.stmt, hr, ⟨hmem.2 ⟨s, hs, rfl, rfl⟩, ho⟩, ?_⟩
    rintro t ⟨ht, hta⟩
    obtain ⟨s', hs', rfl, he⟩ := hmem.1 ht
    refine hgreatest s'.ordinal (hg.mem_region hta) (hg.scan_accesses.2 hta) ?_
    rw [hg.ground_stmt hs', hg.ground_stmt hs, he]
  · rintro ⟨p, hp, ⟨ho, hacc⟩, hgreatest⟩
    obtain ⟨s, hs, rfl, rfl⟩ := hmem.1 ho
    have hr : g.marks.inReturn s.ordinal = true := by
      rw [(marks_of_sites hg.sites s hs).2, inReturn_eq_returnsAt h hs, hp]
    refine ⟨hg.mem_region hacc, hg.scan_accesses.2 hacc, (hg.scan_inReturn hacc).trans hr, ?_⟩
    intro t ht hta he
    have hta := hg.scan_accesses.1 hta
    obtain ⟨s', hs', rfl, -⟩ := id hta
    rw [hg.ground_stmt hs', hg.ground_stmt hs, Option.some.injEq] at he
    exact hgreatest ⟨hmem.2 ⟨s', hs', rfl, he⟩, hta⟩

/-- Control gets from the last access of a `return` to no other access. -/
theorem last_of_ends (h : ofTree exitEdges tree = .ok g)
    (ho : (g.ground (g.scan b) repeated).Ends g.region o) {t : Nat} (ht : g.Accesses b t) :
    ¬ TransGen g.Leads (.site o) (.site t) := by
  have hg := laid_of_ofTree h
  intro hp
  have hacc := hg.scan_accesses.1 ho.access
  have hr : g.marks.inReturn o = true := (hg.scan_inReturn hacc).symm.trans ho.inReturn
  obtain ⟨t', ht', hlt, -⟩ := (hg.ahead_of_inReturn hr hp).resolve_left nofun
  cases ht'
  obtain ⟨t', ht', hhome⟩ := (home_of_path h hr hp).resolve_left nofun
  cases ht'
  obtain ⟨s, hs, rfl, -⟩ := hacc
  obtain ⟨s', hs', rfl, -⟩ := id ht
  rw [hg.home_eq hs', hg.home_eq hs] at hhome
  have hle := ho.greatest s'.ordinal (hg.mem_region ht) (hg.scan_accesses.2 ht)
    (by rw [hg.ground_stmt hs', hg.ground_stmt hs, hhome])
  omega

/-- The frozen sites of a verdict are, in order, the last access of each `return` of the tree that
accesses the binding; none of those that the sweep freezes is dropped, and the final site belongs
to no `return`. -/
theorem frozen_iff_greatest (h : ofTree exitEdges tree = .ok g) (b : Binding)
    (repeated : List Nat) :
    (g.verdict (g.scan b) repeated).frozen.Pairwise (· < ·) ∧
    (∀ o, o ∈ (g.verdict (g.scan b) repeated).frozen ↔
      ∃ p, tree.returnsAt p = true ∧ IsGreatest {t | t ∈ g.stmtSites p ∧ g.Accesses b t} o) ∧
    (g.verdict (g.scan b) repeated).frozen =
      (sweepAll (g.ground (g.scan b) repeated) g.region none).frozen ∧
    ∀ s ∈ g.sites, (g.verdict (g.scan b) repeated).final = some s.ordinal →
      s.inReturn = false := by
  have hg := laid_of_ofTree h
  have hf : (g.ground (g.scan b) repeated).Freezes g.region
      (sweepAll (g.ground (g.scan b) repeated) g.region none).frozen :=
        froze_of_ofTree h none nofun
  have hkept : (g.verdict (g.scan b) repeated).frozen =
      (sweepAll (g.ground (g.scan b) repeated) g.region none).frozen := by
    refine List.filter_eq_self.2 fun o ho => ?_
    refine (List.mem_filter.1 (hg.mem_lastAmong.2 ⟨ho, fun t ht _ => ?_⟩)).2
    exact last_of_ends h ((hf.mem o).1 ho) ht
  refine ⟨?_, fun o => ?_, hkept, fun s hs hfinal => ?_⟩
  · rw [hkept]
    refine List.Pairwise.sublist hf.sublist ?_
    rw [hg.region]
    exact List.pairwise_lt_range
  · rw [hkept, hf.mem, ends_iff h]
  · rw [← (marks_of_sites hg.sites s hs).2]
    exact ((final_eq_some_iff_isFinal h).1 hfinal).plain

end FlowGraph

namespace Sample

/-- A loop with a `return` of several sites in an arm, a jump back over it, and a `return` that
control does not get to. -/
def returnsAround : Value :=
  function [.node .labeled [.str "top", use "x"],
    whileLoop "c" [
      ifElse "d" (.node .ret [.node .logicalAnd [name "x",
        .node .call [.str "f", .list [.node .logicalOr [name "x", name "y"], name "y"]]]]) .null],
    ifElse "d" (.node .goto [.str "top"]) .null,
    ret "x",
    ret "x"]

/-- Each `return` is frozen at its last access, whether it stands in a loop, a jump goes back over
it or control does not get to it. -/
theorem frozen_returnsAround :
    FlowGraph.ofTree (.ok true) returnsAround = .ok (graph returnsAround) ∧
      ((graph returnsAround).verdict ((graph returnsAround).scan x)
        ((graph returnsAround).repeated true)).frozen = [7, 12, 13] ∧
      ∀ o, o ∈ [7, 12, 13] ↔ ∃ p, returnsAround.returnsAt p = true ∧
        IsGreatest {t | t ∈ (graph returnsAround).stmtSites p ∧ (graph returnsAround).Accesses x t}
          o := by
  have h : FlowGraph.ofTree (.ok true) returnsAround = .ok (graph returnsAround) :=
    ofTree_eq (by decide +kernel)
  have hf : ((graph returnsAround).verdict ((graph returnsAround).scan x)
      ((graph returnsAround).repeated true)).frozen = [7, 12, 13] := by
    decide +kernel
  obtain ⟨-, hmem, -⟩ := FlowGraph.frozen_iff_greatest h x ((graph returnsAround).repeated true)
  exact ⟨h, hf, fun o => hf ▸ hmem o⟩

end Sample

end LastUse
