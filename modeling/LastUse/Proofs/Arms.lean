import LastUse.Proofs.Frozen

/-!
# Arms exclude each other

No edge but that of a jump leads from one arm of a branch to another, and the cases of a switch
that control falls through share an arm (`FlowGraph.arms_exclusive`). The first is what it means
that edges are fair to branches. For the second, `Draft.Sorts` says that the sites of each case
stand together in one arm; it is built up along the places of statements (`Stmt.At`), which tell
the sites of a case from all others.
-/

namespace LastUse

/-! ## Branches with their places -/

mutual

/-- The branches of a region, each as the place of its statement and its arms. -/
def Region.branchings : Region → List (Path × List (List Region))
  | .site _ | .ret _ => []
  | .branch p arms => (p, arms) :: armBranchings arms
  | .loop _ body => branchingsAll body

/-- The branches of a sequence of regions, with their places. -/
def branchingsAll : List Region → List (Path × List (List Region))
  | [] => []
  | r :: rest => r.branchings ++ branchingsAll rest

/-- The branches in the arms of a branch, with their places. -/
def armBranchings : List (List Region) → List (Path × List (List Region))
  | [] => []
  | arm :: rest => branchingsAll arm ++ armBranchings rest

end

mutual

/-- Without their places they are the branches of the region. -/
theorem Region.map_branchings : ∀ r : Region, r.branchings.map (·.2) = r.branches
  | .site _ | .ret _ => rfl
  | .branch _ arms => by simp [Region.branchings, Region.branches, map_armBranchings arms]
  | .loop _ body => map_branchingsAll body

/-- Without their places they are the branches of the sequence. -/
theorem map_branchingsAll : ∀ rs : List Region, (branchingsAll rs).map (·.2) = branchesAll rs
  | [] => rfl
  | r :: rest => by simp [branchingsAll, branchesAll, r.map_branchings, map_branchingsAll rest]

/-- Without their places they are the branches in the arms. -/
theorem map_armBranchings :
    ∀ arms : List (List Region), (armBranchings arms).map (·.2) = armBranches arms
  | [] => rfl
  | arm :: rest => by
    simp [armBranchings, armBranches, map_branchingsAll arm, map_armBranchings rest]

end

@[simp] theorem branchingsAll_append (a b : List Region) :
    branchingsAll (a ++ b) = branchingsAll a ++ branchingsAll b := by
  induction a with
  | nil => rfl
  | cons r rest ih => simp [branchingsAll, ih]

/-- The branches in arms are those in all their regions. -/
theorem armBranchings_eq_flatten (arms : List (List Region)) :
    armBranchings arms = branchingsAll arms.flatten := by
  induction arms with
  | nil => rfl
  | cons arm rest ih => rw [armBranchings, List.flatten_cons, branchingsAll_append, ih]

/-- There are no branches among sites. -/
theorem branchingsAll_sites (ordinals : List Nat) : branchingsAll (ordinals.map .site) = [] := by
  induction ordinals with
  | nil => rfl
  | cons o rest ih => simp [branchingsAll, Region.branchings, ih]

/-- The regions of the arms are those of the first case, then those of the later ones. -/
theorem Stmt.Arms.flatten_cons {first : Passage} {isDefault : Bool} {later : Arms} :
    (Arms.cons first isDefault later).arms.flatten = first.draft.region ++ later.arms.flatten := by
  simp only [Arms.cons]
  split
  · next hn => simp [hn]
  · simp

/-! ## The sites of a case -/

/-- The place of a case of the switch at a place. -/
def Path.nthCase (p : Path) (i : Nat) : Path := (p.field "cases").item i

/-- Of some sites, those of the statements at certain places stand in one arm. -/
def Gathered (arms : List (List Region)) (sites : List Site) (P : Path → Prop) : Prop :=
  ∀ s ∈ sites, P s.stmt → ∃ arm ∈ arms, ∀ t ∈ sites, P t.stmt → t.ordinal ∈ ordinalsAll arm

namespace Gathered

variable {arms : List (List Region)} {sites sites' : List Site} {P : Path → Prop}

/-- Where no site stands at such a place, there is nothing to gather. -/
theorem of_none (h : ∀ s ∈ sites, ¬ P s.stmt) : Gathered arms sites P :=
  fun s hs hp => absurd hp (h s hs)

/-- Sites of other places do not matter. -/
theorem mono (h : Gathered arms sites P) (hs : ∀ s ∈ sites', P s.stmt → s ∈ sites) :
    Gathered arms sites' P := by
  intro s hm hp
  obtain ⟨arm, ha, hall⟩ := h s (hs s hm hp) hp
  exact ⟨arm, ha, fun t ht hpt => hall t (hs t ht hpt) hpt⟩

end Gathered

/-- A draft holds only sites of the statement at a place. -/
structure Draft.Own (p : Path) (d : Draft) : Prop where
  held : d.sites.map (·.ordinal) = ordinalsAll d.region
  stmt : ∀ s ∈ d.sites, s.stmt = p
  branchings : branchingsAll d.region = []

/-- The draft of a host is its statement's own. -/
theorem Draft.Hosted.own {h : Host} {n : Nat} {d : Draft} (hd : d.Hosted h n) : d.Own h.stmt where
  held := by rw [hd.region, ordinalsAll_map_site]
  stmt s hs := (hd.host s hs).1
  branchings := by rw [hd.region, branchingsAll_sites]

namespace Draft.Own

variable {p : Path} {d : Draft}

/-- The empty draft is everybody's own. -/
theorem empty : Own p {} := ⟨rfl, by simp, rfl⟩

/-- One site of a statement is its own. -/
theorem ofSite {s : Site} (hd : d.sites = [s]) (hs : s.stmt = p)
    (hr : d.region = [.site s.ordinal]) : d.Own p :=
  ⟨by simp [hd, hr, ordinalsAll, Region.ordinals], by simp [hd, hs], by rw [hr]; rfl⟩

end Draft.Own

/-- The statements of a draft stand at certain places, and at each of its branches the sites of a
case stand in one arm. -/
structure Draft.Sorts (P : Path → Prop) (d : Draft) : Prop where
  held : d.sites.map (·.ordinal) = ordinalsAll d.region
  sites : ∀ s ∈ d.sites, P s.stmt
  places : ∀ b ∈ branchingsAll d.region, P b.1
  cases : ∀ b ∈ branchingsAll d.region, ∀ i, Gathered b.2 d.sites (b.1.nthCase i).Under

namespace Draft.Sorts

variable {P P' : Path → Prop} {p : Path} {a b d : Draft} {x y : String}

/-- The places may be told less exactly. -/
theorem mono (hd : d.Sorts P) (h : ∀ q, P q → P' q) : d.Sorts P' :=
  ⟨hd.held, fun s hs => h _ (hd.sites s hs), fun q hq => h _ (hd.places q hq), hd.cases⟩

/-- The empty draft has no sites to sort. -/
theorem empty : Sorts P {} := ⟨rfl, by simp, by simp [branchingsAll], by simp [branchingsAll]⟩

/-- Two drafts, neither of which has sites in a switch of the other. -/
theorem append (ha : a.Sorts P) (hb : b.Sorts P)
    (hab : ∀ q ∈ branchingsAll a.region, ∀ s ∈ b.sites, ¬ q.1.Under s.stmt)
    (hba : ∀ q ∈ branchingsAll b.region, ∀ s ∈ a.sites, ¬ q.1.Under s.stmt) :
    (a ++ b).Sorts P := by
  refine ⟨by simp [ha.held, hb.held], fun s hs => ?_, fun q hq => ?_, fun q hq i => ?_⟩
  · exact (List.mem_append.1 hs).elim (ha.sites s) (hb.sites s)
  · rw [region_append, branchingsAll_append, List.mem_append] at hq
    exact hq.elim (ha.places q) (hb.places q)
  · rw [region_append, branchingsAll_append, List.mem_append] at hq
    rcases hq with hq | hq
    · refine (ha.cases q hq i).mono fun s hs hp => ?_
      exact (List.mem_append.1 hs).resolve_right fun hs => hab q hq s hs hp.of_item.of_field
    · refine (hb.cases q hq i).mono fun s hs hp => ?_
      exact (List.mem_append.1 hs).resolve_left fun hs => hba q hq s hs hp.of_item.of_field

/-- The statements in two fields of a statement. -/
theorem fields (hxy : x ≠ y) (ha : a.Sorts (p.field x).Under) (hb : b.Sorts (p.field y).Under) :
    (a ++ b).Sorts p.Under := by
  refine (ha.mono fun _ => .of_field).append (hb.mono fun _ => .of_field) ?_ ?_
  · intro q hq s hs hu
    exact hxy (((ha.places q hq).trans hu).field_inj (hb.sites s hs))
  · intro q hq s hs hu
    exact hxy ((ha.sites s hs).field_inj ((hb.places q hq).trans hu))

/-- The statements at an item of a list and at later ones. -/
theorem items {i : Nat} (ha : a.Sorts (p.item i).Under) (hb : b.Sorts (p.From (i + 1))) :
    (a ++ b).Sorts (p.From i) := by
  refine (ha.mono fun q hq => ⟨i, Nat.le_refl i, hq⟩).append
    (hb.mono fun q ⟨j, hij, hq⟩ => ⟨j, Nat.le_of_succ_le hij, hq⟩) ?_ ?_
  · intro q hq s hs hu
    obtain ⟨j, hij, hs⟩ := hb.sites s hs
    have := ((ha.places q hq).trans hu).item_inj hs
    omega
  · intro q hq s hs hu
    obtain ⟨j, hij, hq⟩ := hb.places q hq
    have := (ha.sites s hs).item_inj (hq.trans hu)
    omega

/-- A statement with the statements in it: it has further sites of its own, and it may be a branch
itself which keeps the sites of its cases together. -/
theorem node (hd : d.Sorts p.Under) (hb : b.sites.map (·.ordinal) = ordinalsAll b.region)
    (hs : ∀ s ∈ b.sites, s.stmt = p ∨ s ∈ d.sites)
    (hr : ∀ q ∈ branchingsAll b.region, q ∈ branchingsAll d.region ∨
      q.1 = p ∧ ∀ i, Gathered q.2 d.sites (p.nthCase i).Under) : b.Sorts p.Under := by
  have hplaces : ∀ q ∈ branchingsAll b.region, p.Under q.1 := by
    intro q hq
    rcases hr q hq with hq | ⟨rfl, -⟩
    · exact hd.places q hq
    · exact .refl _
  refine ⟨hb, fun s hm => ?_, hplaces, fun q hq i => ?_⟩
  · rcases hs s hm with hp | hm
    · exact hp ▸ .refl _
    · exact hd.sites s hm
  · have hg : Gathered q.2 d.sites (q.1.nthCase i).Under := by
      rcases hr q hq with hq | ⟨rfl, hg⟩
      · exact hd.cases q hq i
      · exact hg i
    refine hg.mono fun s hm hu => (hs s hm).resolve_left fun hp => ?_
    rw [hp] at hu
    exact Path.not_field_under (hu.of_item.trans (hplaces q hq))

/-- A statement without others in it. -/
theorem leaf (ho : d.Own p) : d.Sorts p.Under :=
  empty.node ho.held (fun s hm => .inl (ho.stmt s hm)) (by simp [ho.branchings])

/-- Sites of a statement before and behind the statements in it. -/
theorem around {before behind : Draft} (hd : d.Sorts p.Under) (ha : before.Own p)
    (hb : behind.Own p) : (before ++ d ++ behind).Sorts p.Under := by
  refine hd.node ?_ (fun s hs => ?_) fun q hq => ?_
  · simp [ha.held, hd.held, hb.held]
  · simp only [sites_append, List.mem_append] at hs
    rcases hs with (hs | hs) | hs
    · exact .inl (ha.stmt s hs)
    · exact .inr hs
    · exact .inl (hb.stmt s hs)
  · simp only [region_append, branchingsAll_append, ha.branchings, hb.branchings, List.nil_append,
      List.append_nil] at hq
    exact .inl hq

/-- A loop, from its statements and the edges that lead back. -/
theorem asLoop {back : List Edge} (hd : d.Sorts P) :
    ((d ++ Draft.ofEdges back).asLoop p).withoutBreaks.withoutContinues.Sorts P := by
  refine ⟨?_, ?_, ?_, ?_⟩ <;>
    simp only [Draft.asLoop, withoutBreaks, withoutContinues, ofEdges, sites_append, region_append,
      List.append_nil, branchingsAll, Region.branchings, ordinalsAll, Region.ordinals]
  · exact hd.held
  · exact hd.sites
  · exact hd.places
  · exact hd.cases

end Draft.Sorts

namespace Stmt

/-- The cases of a switch from an index on stand each in one arm. -/
structure Arms.Sorts (p : Path) (i : Nat) (a : Arms) : Prop where
  draft : a.draft.Sorts (p.From i)
  region : a.arms.flatten = a.draft.region
  cases : ∀ j, Gathered a.arms a.draft.sites (p.item j).Under

/-- A case and those that follow it. -/
theorem Arms.Sorts.cons {p : Path} {i : Nat} {first : Passage} {isDefault : Bool} {later : Arms}
    (hf : first.draft.Sorts (p.item i).Under)
    (hl : later.Sorts p (i + 1)) : (Arms.cons first isDefault later).Sorts p i := by
  refine ⟨hf.items hl.draft, by rw [flatten_cons, hl.region]; rfl, fun j => ?_⟩
  by_cases hij : j = i
  · subst hij
    -- The sites of this case are those of its own draft, which its arm begins with.
    have harm :
        ∃ arm ∈ (Arms.cons first isDefault later).arms, ∀ o ∈ ordinalsAll first.draft.region,
        o ∈ ordinalsAll arm := by
      simp only [Arms.cons]
      split
      · exact ⟨_, List.mem_cons_self, fun o ho => by simp [ho]⟩
      · exact ⟨_, List.mem_cons_self, fun o ho => ho⟩
    obtain ⟨arm, ha, hall⟩ := harm
    intro _ _ _
    refine ⟨arm, ha, fun t ht hu => hall _ ?_⟩
    rcases List.mem_append.1 ht with ht | ht
    · rw [← hf.held]
      exact List.mem_map_of_mem ht
    · obtain ⟨k, hk, hu'⟩ := hl.draft.sites t ht
      have := hu.item_inj hu'
      omega
  · -- The sites of the other cases stand in the arms of those.
    have hlater : ∀ arm ∈ later.arms, ∃ arm' ∈ (Arms.cons first isDefault later).arms,
        ∀ o ∈ ordinalsAll arm, o ∈ ordinalsAll arm' := by
      intro arm ha
      simp only [Arms.cons]
      split
      · next hn =>
        rw [hn, List.mem_cons] at ha
        rcases ha with rfl | ha
        · exact ⟨_, List.mem_cons_self, fun o ho => by simp [ho]⟩
        · exact ⟨arm, List.mem_cons_of_mem _ ha, fun o ho => ho⟩
      · exact ⟨arm, List.mem_cons_of_mem _ ha, fun o ho => ho⟩
    have hmem : ∀ s ∈ first.draft.sites ++ later.draft.sites, (p.item j).Under s.stmt →
        s ∈ later.draft.sites := by
      intro s hs hu
      refine (List.mem_append.1 hs).resolve_left fun hs => hij (hu.item_inj (hf.sites s hs))
    intro s hs hu
    obtain ⟨arm, ha, hall⟩ := hl.cases j s (hmem s hs hu) hu
    obtain ⟨arm', ha', hsub⟩ := hlater arm ha
    exact ⟨arm', ha', fun t ht hut => hsub _ (hall t (hmem t ht hut) hut)⟩

/-- Every flow through a statement at a place keeps the sites of each case together. -/
theorem sorts : FlowInvariant (fun _ s _ _ r => ∀ p, s.At p → r.draft.Sorts p.Under)
    (fun _ ss _ _ r => ∀ p i, AtAll p i ss → r.draft.Sorts (p.From i))
    (fun _ arms _ _ _ a => ∀ p i, AtAll p i arms → a.Sorts p i) where
  absent _ _ := .empty
  block h := by
    rintro p ⟨-, hp⟩
    exact (h _ 0 hp).mono fun _ => Path.From.under
  exprStmt hh := by
    rintro p rfl
    exact .leaf (Head.Laid.optional hh).hosted.own
  decl hh := by
    rintro p rfl
    exact .leaf (Head.Laid.optional hh).hosted.own
  ifElse hh hy hn := by
    rintro p ⟨rfl, ht, he⟩
    have hh := (Head.Laid.evaluating hh).hosted.own
    have hy := hy _ ht
    have hn := hn _ he
    refine (Draft.Sorts.fields (by decide) hy hn).node ?_ (fun s hs => ?_) fun q hq => ?_
    · simp [Draft.asBranch, hh.held, hy.held, hn.held, ordinalsAll, Region.ordinals, armOrdinals]
    · exact (List.mem_append.1 hs).imp_left (hh.stmt s)
    · simp only [Draft.region_append, branchingsAll_append, hh.branchings, Draft.asBranch,
        branchingsAll, Region.branchings, armBranchings, List.append_nil, List.nil_append,
        List.mem_cons] at hq ⊢
      refine hq.symm.imp_right ?_
      rintro rfl
      -- An `if` has no cases.
      refine ⟨rfl, fun i => .of_none fun s hs hu => ?_⟩
      rcases List.mem_append.1 hs with hs | hs
      · exact absurd ((hy.sites s hs).field_inj hu.of_item) (by decide)
      · exact absurd ((hn.sites s hs).field_inj hu.of_item) (by decide)
  whileLoop hh hb := by
    rintro p ⟨rfl, hp⟩
    have hh := (Head.Laid.loop hh).hosted.own
    exact (((hb _ hp).mono fun _ => .of_field).around hh .empty).asLoop
  forLoop hf hi hd hh hb hs := by
    rintro p ⟨rfl, hp, hp'⟩
    have hi := (Passage.Evaluates.init hi).hosted.own
    have hh := (Head.Laid.loop hh).hosted.own
    have hs := (Passage.Evaluates.step hs).hosted.own
    have hf := hf _ hp
    have hb := hb _ hp'
    refine (Draft.Sorts.fields (by decide) hf hb).node ?_ (fun s hm => ?_) fun q hq => ?_
    · simp [closeLoop, Draft.asLoop, Draft.withoutBreaks, Draft.withoutContinues, Draft.ofEdges,
        hi.held, hh.held, hs.held, hf.held, hb.held, ordinalsAll, Region.ordinals]
    · simp only [closeLoop, Draft.asLoop, Draft.withoutBreaks, Draft.withoutContinues,
        Draft.ofEdges, Draft.sites_append, List.append_nil, List.mem_append] at hm ⊢
      have := hi.stmt s
      have := hh.stmt s
      have := hs.stmt s
      tauto
    · simp only [closeLoop, Draft.asLoop, Draft.withoutBreaks, Draft.withoutContinues,
        Draft.ofEdges, Draft.region_append, branchingsAll_append, branchingsAll, Region.branchings,
        hi.branchings,
        hh.branchings, hs.branchings, List.nil_append, List.append_nil] at hq ⊢
      exact .inl hq
  foreach hh hb := by
    rintro p ⟨rfl, hp⟩
    have hh := (Head.Laid.evaluating hh).hosted.own
    exact (((hb _ hp).mono fun _ => .of_field).around hh .empty).asLoop
  doWhile hb hh := by
    rintro p ⟨rfl, hp⟩
    have hh := (Head.Laid.loop hh).hosted.own
    exact (((hb _ hp).mono fun _ => .of_field).around .empty hh).asLoop
  switch {_ _ _ _ _ _ _ _ arms} hh ha := by
    rintro p ⟨rfl, hp⟩
    have hh := (Head.Laid.evaluating hh).hosted.own
    have harms := ha _ 0 hp
    have hf : (if arms.hasDefault = true then arms.arms else arms.arms ++ [[]]).flatten
        = arms.draft.region := by
      rw [← harms.region]
      split <;> simp
    have hdraft := harms.draft.mono fun _ => Path.From.under
    refine hdraft.node ?_ (fun s hs => ?_) fun q hq => ?_
    · simp [closeSwitch, Draft.asBranch, Draft.withoutBreaks, hh.held, harms.draft.held,
        ordinalsAll, Region.ordinals, ← ordinalsAll_flatten, hf]
    · exact (List.mem_append.1 hs).imp_left (hh.stmt s)
    · simp only [closeSwitch, Draft.asBranch, Draft.withoutBreaks, Draft.region_append,
        branchingsAll_append, hh.branchings, branchingsAll, Region.branchings,
        armBranchings_eq_flatten,
        hf, List.append_nil, List.nil_append, List.mem_cons] at hq
      refine hq.symm.imp_right ?_
      rintro rfl
      refine ⟨rfl, fun i s hs hu => ?_⟩
      obtain ⟨arm, ha, hall⟩ := harms.cases i s hs hu
      refine ⟨arm, ?_, hall⟩
      split
      · exact ha
      · exact List.mem_append_left _ ha
  labeled {sc p label text _ c fr _} _ hb := by
    rintro p ⟨rfl, hp⟩
    have hl : (labelDraft sc p label text c.next fr).Own p := .ofSite rfl rfl rfl
    have hd := ((hb _ hp).mono fun _ => .of_field).around hl .empty
    rwa [Draft.append_empty] at hd
  goto p hp := .leaf (.ofSite rfl hp rfl)
  ret hh he := by
    rintro p rfl
    have hh := (Head.Laid.optional hh).hosted.own
    refine .leaf ⟨?_, ?_, ?_⟩
    · simp [closeReturn, hh.held, ordinalsAll, Region.ordinals]
    · simpa [closeReturn] using hh.stmt
    · simp [closeReturn, hh.branchings, branchingsAll, Region.branchings]
  brk _ p hp := .leaf (.ofSite rfl hp rfl)
  cont _ p hp := .leaf (.ofSite rfl hp rfl)
  nil _ _ _ := .empty
  cons hf hl := fun p i hp => (hf _ hp.1).items (hl _ _ hp.2)
  noArms _ _ _ := ⟨.empty, rfl, fun _ => .of_none (by simp)⟩
  arm hf hl := by
    rintro p i ⟨⟨-, hbody⟩, hrest⟩
    exact .cons ((hf _ 0 hbody).mono fun _ => Path.From.under) (hl _ _ hrest)

end Stmt

/-! ## Flow graphs -/

namespace FlowGraph

variable {exitEdges : Except Fault Bool} {tree : Value} {g : FlowGraph}

/-- At each branch of a flow graph the sites of a case stand in one arm. -/
theorem gathered_of_ofTree (h : ofTree exitEdges tree = .ok g) {p : Path}
    {arms : List (List Region)} (hb : (p, arms) ∈ branchingsAll g.region) (i : Nat) :
    Gathered arms g.sites (p.nthCase i).Under := by
  obtain ⟨whole, hg⟩ := exists_drafted (ofBody_of_ofTree h)
  have hw := (Stmt.sorts.flow hg.flow _ (at_bodyOf tree)).cases _ (hg.region ▸ hb) i
  intro s hs hu
  rw [hg.sites] at hs ⊢
  obtain ⟨s, hm, rfl⟩ := List.mem_map.1 hs
  obtain ⟨arm, ha, hall⟩ := hw s hm hu
  refine ⟨arm, ha, fun t ht hut => ?_⟩
  obtain ⟨t, hmt, rfl⟩ := List.mem_map.1 ht
  exact hall t hmt hut

/-- An edge that is fair to a branch does not lead from one arm to another. -/
theorem not_apart_of_fair {arms : List (List Region)} (hn : (armOrdinals arms).Nodup) {e : Edge}
    (he : e.Fair arms) {u v : Nat} (hu : e.source = .site u) (hv : e.target = .site v) :
    ¬ Apart arms u v := by
  intro hapart
  obtain ⟨hmu, hmv⟩ := hapart.mem
  obtain ⟨arm, ha, hm⟩ := mem_armOrdinals.1 hmv
  rcases he u v hu hv arm ha hm with hsame | hbefore
  · exact Apart.not_of_mem hn ha hsame hm hapart
  · exact Nat.lt_irrefl u (hbefore u hmu)

/-- A site stands in one arm of a branch. -/
theorem arm_unique {arms : List (List Region)} (hn : (armOrdinals arms).Nodup)
    {arm arm' : List Region} (ha : arm ∈ arms) (ha' : arm' ∈ arms) {o : Nat}
    (ho : o ∈ ordinalsAll arm)
    (ho' : o ∈ ordinalsAll arm') : arm = arm' := by
  by_contra hne
  obtain ⟨before, behind, rfl⟩ := List.append_of_mem ha
  have hother : arm' ∈ before ++ behind := by
    rw [List.mem_append, List.mem_cons] at ha'
    rw [List.mem_append]
    exact ha'.imp_right fun h => h.resolve_left (Ne.symm hne)
  exact Apart.not_of_mem hn ha ho ho ⟨before, arm, behind, rfl, ho,
    mem_armOrdinals.2 ⟨arm', hother, ho'⟩⟩

/-- No edge but that of a jump leads from one arm of a branch to another. The sites of two cases of
a switch that such an edge joins stand in one arm. -/
theorem arms_exclusive (h : ofTree exitEdges tree = .ok g) :
    ∃ others, g.edges = others ++ g.jumps.map Jump.edge ∧
      ∀ p arms, (p, arms) ∈ branchingsAll g.region → ∀ e ∈ others,
        (∀ u v, e.source = .site u → e.target = .site v → ¬ Apart arms u v) ∧
        ∀ s ∈ g.sites, ∀ t ∈ g.sites, e.source = .site s.ordinal → e.target = .site t.ordinal →
          ∀ i j, (p.nthCase i).Under s.stmt → (p.nthCase j).Under t.stmt →
            ∃ arm ∈ arms, ∀ r ∈ g.sites, (p.nthCase i).Under r.stmt ∨ (p.nthCase j).Under r.stmt →
              r.ordinal ∈ ordinalsAll arm := by
  obtain ⟨whole, hg⟩ := exists_drafted (ofBody_of_ofTree h)
  have hlaid := laid_of_ofTree h
  obtain ⟨exits, -, hedges⟩ := hg.edges
  refine ⟨_, hedges, fun p arms hb e he => ?_⟩
  have harms : arms ∈ branchesAll g.region := by
    rw [← map_branchingsAll]
    exact List.mem_map_of_mem hb
  have hnodup : (armOrdinals arms).Nodup := by
    have hsub := sublist_of_branchesAll harms
    rw [hlaid.region] at hsub
    exact hsub.nodup List.nodup_range
  have hfair : e.Fair arms := by
    simp only [List.mem_append] at he
    rcases he with (he | he) | he
    · exact (Stmt.fenced.flow hg.flow).fair arms (hg.region ▸ harms) e he
    all_goals
      refine .of_target fun v hv => ?_
      split at he
    · cases hv.symm.trans (source_mem_of_leadTo he).2
    · simp at he
    · cases List.mem_singleton.1 he
      cases hv
    · simp at he
  refine ⟨fun u v hu hv => not_apart_of_fair hnodup hfair hu hv, ?_⟩
  intro s hs t ht hsrc htgt i j hi hj
  obtain ⟨arm, ha, hall⟩ := gathered_of_ofTree h hb i s hs hi
  obtain ⟨arm', ha', hall'⟩ := gathered_of_ofTree h hb j t ht hj
  -- The edge leads from one of the two arms to the other, so they are the same.
  have hsame : s.ordinal ∈ ordinalsAll arm' := by
    rcases hfair _ _ hsrc htgt arm' ha' (hall' t ht hj) with hsame | hbefore
    · exact hsame
    · have hm : s.ordinal ∈ armOrdinals arms := mem_armOrdinals.2 ⟨arm, ha, hall s hs hi⟩
      exact absurd (hbefore _ hm) (Nat.lt_irrefl _)
  cases arm_unique hnodup ha ha' (hall s hs hi) hsame
  exact ⟨arm, ha, fun r hr hu => hu.elim (hall r hr) (hall' r hr)⟩

end FlowGraph

namespace Sample

/-- A switch of which the first case falls through an empty one unless it breaks. -/
def joined : Value :=
  function [.node .switch [name "c", .list [
    caseArm [name "one"] [ifElse "d" (.node .brk []) .null],
    caseArm [name "two"] [],
    caseArm [] [use "x"]]]]

/-- The first case and the last one share an arm. -/
theorem joined_shares_arm :
    FlowGraph.ofTree (.ok true) joined = .ok (graph joined) ∧
      ∃ arms, (place 0, arms) ∈ branchingsAll (graph joined).region ∧ ∃ arm ∈ arms,
        ∀ r ∈ (graph joined).sites,
          ((place 0).nthCase 0).Under r.stmt ∨ ((place 0).nthCase 2).Under r.stmt →
            r.ordinal ∈ ordinalsAll arm := by
  have h : FlowGraph.ofTree (.ok true) joined = .ok (graph joined) := ofTree_eq (by decide +kernel)
  obtain ⟨others, hedges, hall⟩ := FlowGraph.arms_exclusive h
  have hothers : others = (graph joined).edges := by
    rw [hedges, show (graph joined).jumps = [] by decide +kernel, List.map_nil, List.append_nil]
  obtain ⟨s, hs, ho, hstmt⟩ : ∃ s ∈ (graph joined).sites, s.ordinal = 1 ∧
      s.stmt = (((place 0).nthCase 0).field "body").item 0 := by decide +kernel
  obtain ⟨t, ht, ho', hstmt'⟩ : ∃ t ∈ (graph joined).sites, t.ordinal = 3 ∧
      t.stmt = (((place 0).nthCase 2).field "body").item 0 := by decide +kernel
  have hedge : (⟨.site 1, .site 3, .nextLine⟩ : Edge) ∈ others := by
    rw [hothers]
    decide +kernel
  have hbranch : ∃ b ∈ branchingsAll (graph joined).region, b.1 = place 0 := by decide +kernel
  obtain ⟨⟨_, arms⟩, hb, rfl⟩ := hbranch
  refine ⟨h, arms, hb, (hall _ arms hb _ hedge).2 s hs t ht (by rw [ho]) (by rw [ho']) 0 2 ?_ ?_⟩
  · exact hstmt ▸ (Path.Under.refl _).of_item.of_field
  · exact hstmt' ▸ (Path.Under.refl _).of_item.of_field

end Sample

end LastUse
