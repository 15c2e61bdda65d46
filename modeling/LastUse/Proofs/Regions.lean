import Mathlib.Data.List.Sort
import LastUse.Proofs.Frozen
import LastUse.Proofs.Ownership

/-!
# The sites in the regions

Read from left to right, the regions of a function hold its sites in order, each once. They also
tell two of the marks of a site: it stands in a loop exactly if it lies below a loop among the
regions, and it belongs to a `return` exactly if the regions leave the function right behind it and
the other sites of its statement (`FlowGraph.region_linear`). The first is kept by every flow as an
equation between lists (`Stmt.looped_flow`). The second is read off the nesting of the regions:
`Nested.exit` says what stands before an exit, and `Cut` that all the rest of the function consists
of whole statements too, so that no site of the `return` is elsewhere.
-/

namespace LastUse

/-! ## Below a loop -/

/-- A site lies below a loop among some regions. -/
inductive BelowLoop (o : Nat) : List Region → Prop
  | loop {rs body : List Region} {p : Path} : .loop p body ∈ rs → o ∈ ordinalsAll body →
      BelowLoop o rs
  | arm {rs arm : List Region} {arms : List (List Region)} {p : Path} : .branch p arms ∈ rs →
      arm ∈ arms → BelowLoop o arm → BelowLoop o rs

mutual

/-- The sites of a region that lie below a loop, in order: all of them if the region itself
does. -/
def Region.looped (inLoop : Bool) : Region → List Nat
  | .site o => if inLoop then [o] else []
  | .branch _ arms => armsLooped inLoop arms
  | .loop _ body => loopedAll true body
  | .ret _ => []

/-- The sites of a sequence of regions that lie below a loop. -/
def loopedAll (inLoop : Bool) : List Region → List Nat
  | [] => []
  | r :: rest => r.looped inLoop ++ loopedAll inLoop rest

/-- The sites of the arms of a branch that lie below a loop. -/
def armsLooped (inLoop : Bool) : List (List Region) → List Nat
  | [] => []
  | arm :: rest => loopedAll inLoop arm ++ armsLooped inLoop rest

end

@[simp] theorem loopedAll_append (inLoop : Bool) (a b : List Region) :
    loopedAll inLoop (a ++ b) = loopedAll inLoop a ++ loopedAll inLoop b := by
  induction a with
  | nil => rfl
  | cons r rest ih => simp [loopedAll, ih]

/-- The sites in loops of two lists of arms are those of the first, then those of the second. -/
theorem armsLooped_append (inLoop : Bool) (a b : List (List Region)) :
    armsLooped inLoop (a ++ b) = armsLooped inLoop a ++ armsLooped inLoop b := by
  induction a with
  | nil => rfl
  | cons arm rest ih => simp [armsLooped, ih]

/-- Of sites outside of all regions either all lie below a loop or none. -/
theorem loopedAll_sites (inLoop : Bool) (ordinals : List Nat) :
    loopedAll inLoop (ordinals.map .site) = if inLoop then ordinals else [] := by
  induction ordinals with
  | nil => simp [loopedAll]
  | cons o rest ih => cases inLoop <;> simp_all [loopedAll, Region.looped]

mutual

/-- All sites of a region that lies below a loop do. -/
theorem Region.looped_true : ∀ r : Region, r.looped true = r.ordinals
  | .site _ => rfl
  | .ret _ => rfl
  | .branch _ arms => by rw [Region.looped, Region.ordinals, armsLooped_true arms]
  | .loop _ body => by rw [Region.looped, Region.ordinals, loopedAll_true body]

/-- If a sequence lies below a loop, so do all its sites. -/
theorem loopedAll_true : ∀ rs : List Region, loopedAll true rs = ordinalsAll rs
  | [] => rfl
  | r :: rest => by rw [loopedAll, ordinalsAll, Region.looped_true r, loopedAll_true rest]

/-- If a branch lies below a loop, so do all sites of its arms. -/
theorem armsLooped_true : ∀ arms : List (List Region), armsLooped true arms = armOrdinals arms
  | [] => rfl
  | arm :: rest => by rw [armsLooped, armOrdinals, loopedAll_true arm, armsLooped_true rest]

end

/-- The sites of a sequence that lie below a loop are those of its regions that do. -/
theorem mem_loopedAll {inLoop : Bool} {rs : List Region} {o : Nat} :
    o ∈ loopedAll inLoop rs ↔ ∃ r ∈ rs, o ∈ r.looped inLoop := by
  induction rs with
  | nil => simp [loopedAll]
  | cons r rest ih => simp [loopedAll, ih]

/-- The sites of arms that lie below a loop are those of each arm that do. -/
theorem mem_armsLooped {inLoop : Bool} {arms : List (List Region)} {o : Nat} :
    o ∈ armsLooped inLoop arms ↔ ∃ arm ∈ arms, o ∈ loopedAll inLoop arm := by
  induction arms with
  | nil => simp [armsLooped]
  | cons arm rest ih => simp [armsLooped, ih]

/-- A site below a loop lies below it among more regions, too. -/
theorem BelowLoop.mono {o : Nat} {a b : List Region} (h : BelowLoop o a) (hs : ∀ r ∈ a, r ∈ b) :
    BelowLoop o b := by
  cases h with
  | loop hl ho => exact .loop (hs _ hl) ho
  | arm hb ha ho => exact .arm (hs _ hb) ha ho

mutual

/-- The sites that a region lists as below a loop lie below one. -/
theorem Region.belowLoop_of_looped {o : Nat} : ∀ {r : Region}, o ∈ r.looped false → BelowLoop o [r]
  | .site _, h | .ret _, h => by simp [Region.looped] at h
  | .branch p arms, h => by
    rw [Region.looped] at h
    obtain ⟨arm, ha, hb⟩ := belowLoop_of_armsLooped h
    exact .arm List.mem_cons_self ha hb
  | .loop p body, h => by
    rw [Region.looped, loopedAll_true] at h
    exact .loop List.mem_cons_self h

/-- The sites that a sequence lists as below a loop lie below one. -/
theorem belowLoop_of_loopedAll {o : Nat} :
    ∀ {rs : List Region}, o ∈ loopedAll false rs → BelowLoop o rs
  | [], h => by simp [loopedAll] at h
  | r :: rest, h => by
    rw [loopedAll, List.mem_append] at h
    rcases h with h | h
    · exact (Region.belowLoop_of_looped h).mono (by simp)
    · exact (belowLoop_of_loopedAll h).mono fun _ => List.mem_cons_of_mem _

/-- The sites that arms list as below a loop lie below one in some arm. -/
theorem belowLoop_of_armsLooped {o : Nat} :
    ∀ {arms : List (List Region)}, o ∈ armsLooped false arms → ∃ arm ∈ arms, BelowLoop o arm
  | [], h => by simp [armsLooped] at h
  | arm :: rest, h => by
    rw [armsLooped, List.mem_append] at h
    rcases h with h | h
    · exact ⟨arm, List.mem_cons_self, belowLoop_of_loopedAll h⟩
    · obtain ⟨x, hx, hb⟩ := belowLoop_of_armsLooped h
      exact ⟨x, List.mem_cons_of_mem _ hx, hb⟩

end

/-- The sites below a loop are those that the sequence lists. -/
theorem belowLoop_iff {o : Nat} {rs : List Region} : BelowLoop o rs ↔ o ∈ loopedAll false rs := by
  refine ⟨fun h => ?_, belowLoop_of_loopedAll⟩
  induction h with
  | @loop rs body p hl ho =>
    refine mem_loopedAll.2 ⟨_, hl, ?_⟩
    rwa [Region.looped, loopedAll_true]
  | @arm rs arm arms p hb ha _ ih =>
    refine mem_loopedAll.2 ⟨_, hb, ?_⟩
    rw [Region.looped]
    exact mem_armsLooped.2 ⟨arm, ha, ih⟩

/-- The sites of a draft that are marked as standing in a loop. -/
def Draft.loopSites (d : Draft) : List Nat := (d.sites.filter (·.inLoop)).map (·.ordinal)

@[simp] theorem Draft.loopSites_append (a b : Draft) :
    (a ++ b).loopSites = a.loopSites ++ b.loopSites := by
  simp [loopSites]

/-- The sites of a statement's own expressions are marked as the statement is. -/
theorem Draft.Hosted.looped {h : Host} {n : Nat} {d : Draft} (hd : d.Hosted h n) :
    loopedAll h.inLoop d.region = d.loopSites := by
  rw [hd.region, loopedAll_sites, Draft.loopSites]
  split
  · next hl => rw [List.filter_eq_self.2 fun s hs => by rw [(hd.host s hs).2.1, hl]]
  · next hl =>
      rw [List.filter_eq_nil_iff.2 fun s hs => by rw [(hd.host s hs).2.1]; exact hl, List.map_nil]

/-- A statement with one site. -/
theorem Draft.looped_of_site {d : Draft} {s : Site} {inLoop : Bool} (hd : d.sites = [s])
    (hr : d.region = [.site s.ordinal]) (hl : s.inLoop = inLoop) :
    loopedAll inLoop d.region = d.loopSites := by
  rw [hr, Draft.loopSites, hd]
  cases inLoop <;> simp [loopedAll, Region.looped, hl]

namespace Stmt

/-- All sites of a loop lie below it. -/
theorem looped_closeLoop {p : Path} {n : Nat} {head : Head} {body step : Passage} (inLoop : Bool) :
    loopedAll inLoop (closeLoop p n head body step).draft.region =
      loopedAll true head.draft.region ++ loopedAll true body.draft.region ++
        loopedAll true step.draft.region := by
  simp [closeLoop, Draft.asLoop, Draft.withoutBreaks, Draft.withoutContinues, Draft.ofEdges,
    loopedAll, Region.looped]

/-- The marked sites of a loop are those of its head, its body and its step. -/
theorem loopSites_closeLoop {p : Path} {n : Nat} {head : Head} {body step : Passage} :
    (closeLoop p n head body step).draft.loopSites =
      head.draft.loopSites ++ body.draft.loopSites ++ step.draft.loopSites := by
  simp [closeLoop, Draft.asLoop, Draft.withoutBreaks, Draft.withoutContinues, Draft.ofEdges,
    Draft.loopSites]

/-- The sites in loops of the arms of a switch are those of the first case, then those of the later
ones. -/
theorem Arms.looped_cons {first : Passage} {isDefault : Bool} {later : Arms} (inLoop : Bool) :
    armsLooped inLoop (Arms.cons first isDefault later).arms =
      loopedAll inLoop first.draft.region ++ armsLooped inLoop later.arms := by
  simp only [Arms.cons]
  split
  · next hn => simp [armsLooped, hn]
  · rfl

/-- The sites of a statement that stand in a loop are those that lie below a loop among its
regions, or all of them if the statement stands in a loop. -/
theorem looped_flow : FlowInvariant
    (fun sc _ _ _ r => loopedAll sc.inLoop r.draft.region = r.draft.loopSites)
    (fun sc _ _ _ r => loopedAll sc.inLoop r.draft.region = r.draft.loopSites)
    (fun sc _ _ _ _ r => armsLooped sc.inLoop r.arms = r.draft.loopSites) where
  absent := rfl
  block h := h
  exprStmt hh := (Head.Laid.optional hh).hosted.looped
  decl hh := (Head.Laid.optional hh).hosted.looped
  ifElse {sc _ _ _ _ _ _ _ _ _ _} hh hy hn := by
    have hh := (Head.Laid.evaluating hh).hosted.looped
    rw [Draft.region_append, loopedAll_append, Draft.loopSites_append]
    refine congrArg₂ (· ++ ·) hh ?_
    show loopedAll sc.inLoop [.branch _ _] = (_ ++ _ : Draft).loopSites
    rw [Draft.loopSites_append, ← hy, ← hn]
    simp [loopedAll, Region.looped, armsLooped]
  whileLoop hh hb := by
    rw [looped_closeLoop, loopSites_closeLoop, ← hb, ← (Head.Laid.loop hh).hosted.looped]
    rfl
  forLoop hf hi _ hh hb hs := by
    have hi := (Passage.Evaluates.init hi).hosted.looped
    have hh := (Head.Laid.loop hh).hosted.looped
    have hs := (Passage.Evaluates.step hs).hosted.looped
    simp only [Draft.region_append, Draft.loopSites_append, loopedAll_append, looped_closeLoop,
      loopSites_closeLoop, ← hf, ← hi, ← hh, ← hb, ← hs]
    rfl
  foreach hh hb := by
    rw [looped_closeLoop, loopSites_closeLoop, ← hb, ← (Head.Laid.evaluating hh).hosted.looped]
    rfl
  doWhile {_ p _ _ c _ _ body head} hb hh := by
    have hh := (Head.Laid.loop hh).hosted.looped
    have hsites : (closeDoWhile p c.next body head).draft.loopSites =
        body.draft.loopSites ++ head.draft.loopSites := by
      simp [closeDoWhile, Draft.asLoop, Draft.withoutBreaks, Draft.withoutContinues, Draft.ofEdges,
        Draft.loopSites]
    rw [hsites, ← hb, ← hh]
    simp [closeDoWhile, Draft.asLoop, Draft.withoutBreaks, Draft.withoutContinues, Draft.ofEdges,
      loopedAll, Region.looped, headerHost, Scope.inLoopBody]
  switch {sc p _ _ _ _ _ head arms} hh ha := by
    have hh := (Head.Laid.evaluating hh).hosted.looped
    have harms : armsLooped sc.inLoop (if arms.hasDefault then arms.arms else arms.arms ++ [[]]) =
        armsLooped sc.inLoop arms.arms := by
      split <;> simp [armsLooped_append, armsLooped, loopedAll]
    have hsites : (closeSwitch p head arms).draft.loopSites =
        head.draft.loopSites ++ arms.draft.loopSites := by
      simp [closeSwitch, Draft.asBranch, Draft.withoutBreaks, Draft.loopSites]
    rw [hsites, ← hh, ← ha]
    simp [closeSwitch, Draft.asBranch, Draft.withoutBreaks, loopedAll, Region.looped, harms,
      plainHost, Scope.inSwitchArm]
  labeled {sc p label text _ c fr _} _ hb := by
    have hl : loopedAll sc.inLoop (labelDraft sc p label text c.next fr).region =
        (labelDraft sc p label text c.next fr).loopSites := Draft.looped_of_site rfl rfl rfl
    rw [Draft.region_append, loopedAll_append, hl, hb, Draft.loopSites_append]
  goto := Draft.looped_of_site rfl rfl rfl
  ret hh _ := by
    have hh := (Head.Laid.optional hh).hosted.looped
    simp only [closeReturn, Draft.region_append, loopedAll_append, Draft.loopSites_append, ← hh]
    rfl
  brk _ := Draft.looped_of_site rfl rfl rfl
  cont _ := Draft.looped_of_site rfl rfl rfl
  nil := rfl
  cons hf hl := by rw [Draft.region_append, loopedAll_append, hf, hl, Draft.loopSites_append]
  noArms := rfl
  arm hf hl := by
    rw [Arms.looped_cons, hf, hl]
    exact (Draft.loopSites_append _ _).symm

end Stmt

/-! ## Sequences among the regions -/

/-- A sequence of regions stands somewhere in another one: it is that sequence, or it stands in an
arm of a branch or in the body of a loop. -/
inductive SequenceIn (seq : List Region) : List Region → Prop
  | whole : SequenceIn seq seq
  | arm {rs arm : List Region} {arms : List (List Region)} {p : Path} : .branch p arms ∈ rs →
      arm ∈ arms → SequenceIn seq arm → SequenceIn seq rs
  | body {rs body : List Region} {p : Path} : .loop p body ∈ rs → SequenceIn seq body →
      SequenceIn seq rs

/-- What stands in a sequence among some regions stands in one among more of them. -/
theorem SequenceIn.exists_behind {r : Region} {rest : List Region}
    (h : ∃ seq, SequenceIn seq rest ∧ r ∈ seq) (before : List Region) :
    ∃ seq, SequenceIn seq (before ++ rest) ∧ r ∈ seq := by
  obtain ⟨seq, hs, hr⟩ := h
  cases hs with
  | whole => exact ⟨before ++ rest, .whole, List.mem_append_right _ hr⟩
  | arm hb ha hs => exact ⟨seq, .arm (List.mem_append_right _ hb) ha hs, hr⟩
  | body hl hs => exact ⟨seq, .body (List.mem_append_right _ hl) hs, hr⟩

/-- A sequence of regions stands somewhere in a region. -/
def Region.Contains (seq : List Region) : Region → Prop
  | .site _ | .ret _ => False
  | .branch _ arms => ∃ arm ∈ arms, SequenceIn seq arm
  | .loop _ body => SequenceIn seq body

/-- A sequence stands in another one if it is that one or stands in one of its regions. -/
theorem sequenceIn_iff {seq rs : List Region} :
    SequenceIn seq rs ↔ seq = rs ∨ ∃ r ∈ rs, r.Contains seq := by
  constructor
  · intro h
    cases h with
    | whole => exact .inl rfl
    | arm hb ha hs => exact .inr ⟨_, hb, _, ha, hs⟩
    | body hl hs => exact .inr ⟨_, hl, hs⟩
  · rintro (rfl | ⟨r, hr, hc⟩)
    · exact .whole
    · cases r with
      | site | ret => cases hc
      | branch p arms =>
        obtain ⟨arm, ha, hs⟩ := hc
        exact .arm hr ha hs
      | loop p body => exact .body hr hc

/-- A sequence of regions stands in another one, with whole statements before it and behind it. -/
structure Cut (stands : Nat → Path → Bool → Prop) (rs left seq right : List Region) : Prop where
  before : Nested stands left
  inner : Nested stands seq
  behind : Nested stands right
  ordinals : ordinalsAll rs = ordinalsAll (left ++ seq ++ right)
  returns : returnsAll rs = returnsAll (left ++ seq ++ right)

/-- What is cut out of a part is cut out of the whole. -/
theorem Cut.extend {stands : Nat → Path → Bool → Prop} {rs left seq right a mid b : List Region}
    (hc : Cut stands mid left seq right) (ha : Nested stands a) (hb : Nested stands b)
    (ho : ordinalsAll rs = ordinalsAll (a ++ mid ++ b))
    (hr : returnsAll rs = returnsAll (a ++ mid ++ b)) :
    Cut stands rs (a ++ left) seq (right ++ b) where
  before := ha.append hc.before
  inner := hc.inner
  behind := hc.behind.append hb
  ordinals := by simp [ho, hc.ordinals]
  returns := by simp [hr, hc.returns]

/-- The returns in the arms of a branch are those in all their regions. -/
theorem returnsAll_flatten (arms : List (List Region)) :
    returnsAll arms.flatten = armReturns arms := by
  induction arms with
  | nil => rfl
  | cons arm rest ih => rw [List.flatten_cons, returnsAll_append, ih, armReturns]

/-- A region that is no site, in front of regions that do not end with one. -/
theorem getLast?_cons_ne {r : Region} {rest : List Region} (hr : ∀ o, r ≠ .site o)
    (h : ∀ o, rest.getLast? ≠ some (.site o)) (o : Nat) :
    (r :: rest).getLast? ≠ some (.site o) := by
  rw [List.getLast?_cons]
  cases hl : rest.getLast? with
  | none => simpa using hr o
  | some x =>
    have hx := h o
    rw [hl] at hx
    simpa using hx

namespace Nested

variable {stands : Nat → Path → Bool → Prop} {rs seq before behind : List Region} {p : Path}

/-- The arms of a branch, one after the other, are whole statements if each of them is. -/
theorem flatten {arms : List (List Region)} (h : ∀ arm ∈ arms, Nested stands arm) :
    Nested stands arms.flatten := by
  induction arms with
  | nil => exact .nil
  | cons arm rest ih =>
    rw [List.forall_mem_cons] at h
    rw [List.flatten_cons]
    exact h.1.append (ih h.2)

/-- A sequence that stands among whole statements is cut out of them, if all that stands in one of
the regions is. -/
theorem cut_of_contains (hn : Nested stands rs)
    (hc : (∃ r ∈ rs, r.Contains seq) → ∃ left right, Cut stands rs left seq right)
    (hs : SequenceIn seq rs) : ∃ left right, Cut stands rs left seq right := by
  rcases sequenceIn_iff.1 hs with rfl | hs
  · exact ⟨[], [], .nil, hn, .nil, by simp, by simp⟩
  · exact hc hs

/-- A sequence that stands in one of the regions of whole statements is cut out of them. -/
theorem cut_of_mem (hn : Nested stands rs) (hc : ∃ r ∈ rs, r.Contains seq) :
    ∃ left right, Cut stands rs left seq right := by
  induction hn with
  | nil =>
    obtain ⟨r, hr, -⟩ := hc
    cases hr
  | @site o p rest ho _ ih =>
    obtain ⟨r, hr, hc⟩ := hc
    rcases List.mem_cons.1 hr with rfl | hr
    · cases hc
    · obtain ⟨left, right, hcut⟩ := ih ⟨r, hr, hc⟩
      exact ⟨_, _, hcut.extend (a := [.site o]) (.site ho .nil) .nil (by simp) (by simp)⟩
  | @branch p arms rest harms hrest iha ih =>
    obtain ⟨r, hr, hc⟩ := hc
    rcases List.mem_cons.1 hr with rfl | hr
    · obtain ⟨arm, ha, hs⟩ := hc
      obtain ⟨left, right, hcut⟩ := (harms arm ha).cut_of_contains (iha arm ha) hs
      obtain ⟨earlier, later, rfl⟩ := List.append_of_mem ha
      -- The other arms stand before the arm and behind it, as if they were run one after the
      -- other.
      have hearlier : Nested stands earlier.flatten := flatten fun x hx => harms x (by simp [hx])
      have hlater : Nested stands later.flatten := flatten fun x hx => harms x (by simp [hx])
      refine ⟨_, _, hcut.extend hearlier (hlater.append hrest) ?_ ?_⟩
      · simp [ordinalsAll, Region.ordinals, armOrdinals_append, armOrdinals, ordinalsAll_flatten]
      · simp [returnsAll, Region.returns, armReturns_eq_flatMap, returnsAll_flatten]
    · obtain ⟨left, right, hcut⟩ := ih ⟨r, hr, hc⟩
      exact ⟨_, _, hcut.extend (a := [.branch p arms]) (.branch harms .nil)
        .nil (by simp) (by simp)⟩
  | @loop p body rest hbody hrest ihb ih =>
    obtain ⟨r, hr, hc⟩ := hc
    rcases List.mem_cons.1 hr with rfl | hr
    · obtain ⟨left, right, hcut⟩ := hbody.cut_of_contains ihb hc
      refine ⟨_, _, hcut.extend .nil hrest ?_ ?_⟩
      · simp [ordinalsAll, Region.ordinals]
      · simp [returnsAll, Region.returns]
    · obtain ⟨left, right, hcut⟩ := ih ⟨r, hr, hc⟩
      exact ⟨_, _, hcut.extend (a := [.loop p body]) (.loop hbody .nil) .nil (by simp) (by simp)⟩
  | @ret p ordinals rest hne ho _ ih =>
    obtain ⟨r, hr, hc⟩ := hc
    rw [List.append_cons, List.mem_append] at hr
    rcases hr with hr | hr
    · rcases List.mem_append.1 hr with hr | hr
      · obtain ⟨o, -, rfl⟩ := List.mem_map.1 hr
        cases hc
      · cases List.mem_singleton.1 hr
        cases hc
    · obtain ⟨left, right, hcut⟩ := ih ⟨r, hr, hc⟩
      exact ⟨_, _, hcut.extend (a := ordinals.map .site ++ [.ret p])
        (.ret hne ho .nil) .nil (by simp) (by simp)⟩

/-- Where a sequence stands in whole statements, whole statements are before it and behind it. -/
theorem cut (hn : Nested stands rs) (hs : SequenceIn seq rs) :
    ∃ left right, Cut stands rs left seq right :=
  hn.cut_of_contains hn.cut_of_mem hs

/-- The regions leave the function in some sequence among them. -/
theorem exists_exit (hn : Nested stands rs) (hp : p ∈ returnsAll rs) :
    ∃ seq, SequenceIn seq rs ∧ .ret p ∈ seq := by
  induction hn with
  | nil => cases hp
  | @site o _ _ _ _ ih => exact SequenceIn.exists_behind (ih hp) [.site o]
  | @branch q arms rest _ _ iha ih =>
    rw [returnsAll, Region.returns, armReturns_eq_flatMap, List.mem_append, List.mem_flatMap] at hp
    rcases hp with ⟨arm, ha, hp⟩ | hp
    · obtain ⟨seq, hs, hmem⟩ := iha arm ha hp
      exact ⟨seq, .arm List.mem_cons_self ha hs, hmem⟩
    · exact SequenceIn.exists_behind (ih hp) [.branch q arms]
  | @loop q body rest _ _ ihb ih =>
    rw [returnsAll, Region.returns, List.mem_append] at hp
    rcases hp with hp | hp
    · obtain ⟨seq, hs, hmem⟩ := ihb hp
      exact ⟨seq, .body List.mem_cons_self hs, hmem⟩
    · exact SequenceIn.exists_behind (ih hp) [.loop q body]
  | @ret q ordinals rest _ _ _ ih =>
    rw [returnsAll_append, returnsAll_sites, List.nil_append, returnsAll, Region.returns,
      List.singleton_append, List.mem_cons] at hp
    rcases hp with rfl | hp
    · exact ⟨_, .whole, List.mem_append_right _ List.mem_cons_self⟩
    · rw [List.append_cons]
      exact SequenceIn.exists_behind (ih hp) _

/-- Whole statements end with sites that belong to no `return`, behind something that is no
site. -/
theorem exists_run (hn : Nested stands rs) : ∃ (earlier : List Region) (others : List Nat),
    rs = earlier ++ others.map .site ∧ (∀ o, earlier.getLast? ≠ some (.site o)) ∧
      ∀ o ∈ others, ∃ q, stands o q false := by
  induction hn with
  | nil => exact ⟨[], [], rfl, by simp, by simp⟩
  | @site x q rest hx _ ih =>
    obtain ⟨earlier, others, rfl, hlast, hplain⟩ := ih
    cases earlier with
    | nil => exact ⟨[], x :: others, rfl, by simp, List.forall_mem_cons.2 ⟨⟨q, hx⟩, hplain⟩⟩
    | cons r earlier =>
      refine ⟨.site x :: r :: earlier, others, rfl, fun o => ?_, hplain⟩
      rw [List.getLast?_cons_cons]
      exact hlast o
  | @branch q arms rest _ _ _ ih =>
    obtain ⟨earlier, others, rfl, hlast, hplain⟩ := ih
    exact ⟨.branch q arms :: earlier, others, rfl, getLast?_cons_ne (by simp) hlast, hplain⟩
  | @loop q body rest _ _ _ ih =>
    obtain ⟨earlier, others, rfl, hlast, hplain⟩ := ih
    exact ⟨.loop q body :: earlier, others, rfl, getLast?_cons_ne (by simp) hlast, hplain⟩
  | @ret q ordinals rest _ _ _ ih =>
    obtain ⟨earlier, others, rfl, hlast, hplain⟩ := ih
    refine ⟨ordinals.map .site ++ .ret q :: earlier, others, by simp, fun o => ?_, hplain⟩
    rw [List.getLast?_append_of_ne_nil _ (List.cons_ne_nil _ _)]
    exact getLast?_cons_ne (by simp) hlast o

/-- Right before an exit there are the sites of its `return`, behind whole statements. -/
theorem exit (hn : Nested stands (before ++ .ret p :: behind)) :
    ∃ (earlier : List Region) (own : List Nat), before = earlier ++ own.map .site ∧
      Nested stands earlier ∧ own ≠ [] ∧ (∀ o ∈ own, stands o p true) ∧ Nested stands behind := by
  generalize hrs : before ++ .ret p :: behind = rs at hn
  induction hn generalizing before with
  | nil => simp at hrs
  | @site x q rest hx _ ih =>
    cases before with
    | nil => cases hrs
    | cons r before =>
      cases hrs
      obtain ⟨earlier, own, rfl, hearlier, hown⟩ := ih rfl
      exact ⟨.site x :: earlier, own, rfl, .site hx hearlier, hown⟩
  | @branch q arms rest harms _ _ ih =>
    cases before with
    | nil => cases hrs
    | cons r before =>
      cases hrs
      obtain ⟨earlier, own, rfl, hearlier, hown⟩ := ih rfl
      exact ⟨.branch q arms :: earlier, own, rfl, .branch harms hearlier, hown⟩
  | @loop q body rest hbody _ _ ih =>
    cases before with
    | nil => cases hrs
    | cons r before =>
      cases hrs
      obtain ⟨earlier, own, rfl, hearlier, hown⟩ := ih rfl
      exact ⟨.loop q body :: earlier, own, rfl, .loop hbody hearlier, hown⟩
  | @ret q ordinals rest hne ho hrest ih =>
    -- The exit is that of the first `return`, or it stands behind that one.
    rcases List.append_eq_append_iff.1 hrs with ⟨_ | ⟨r, mid⟩, hmid, heq⟩ | ⟨_ | ⟨r, mid⟩,
      rfl, heq⟩
    · cases heq
      rw [List.append_nil] at hmid
      exact ⟨[], ordinals, hmid.symm, .nil, hne, ho, hrest⟩
    · cases heq
      have hr : Region.ret p ∈ ordinals.map Region.site := by simp [hmid]
      simp at hr
    · cases heq
      exact ⟨[], ordinals, by simp, .nil, hne, ho, hrest⟩
    · cases heq
      obtain ⟨earlier, own, rfl, hearlier, hown⟩ := ih rfl
      exact ⟨ordinals.map .site ++ .ret q :: earlier, own, by simp, .ret hne ho hearlier, hown⟩

end Nested

namespace FlowGraph

variable {exitEdges : Except Fault Bool} {tree : Value} {g : FlowGraph}

/-- A site stands in a loop exactly if it lies below one among the regions. -/
theorem inLoop_iff_belowLoop (h : ofTree exitEdges tree = .ok g) {s : Site} (hs : s ∈ g.sites) :
    s.inLoop = true ↔ BelowLoop s.ordinal g.region := by
  obtain ⟨whole, hg⟩ := exists_drafted (ofBody_of_ofTree h)
  have hw : loopedAll false whole.draft.region = whole.draft.loopSites :=
    Stmt.looped_flow.flow hg.flow
  have hsites : (g.sites.filter (·.inLoop)).map (·.ordinal) = whole.draft.loopSites := by
    rw [hg.sites, filledSites, List.filter_map, List.map_map]
    rfl
  rw [belowLoop_iff, hg.region, hw, ← hsites]
  constructor
  · intro hl
    exact List.mem_map.2 ⟨s, List.mem_filter.2 ⟨hs, hl⟩, rfl⟩
  · intro ho
    obtain ⟨t, ht, heq⟩ := List.mem_map.1 ho
    obtain ⟨ht, hl⟩ := List.mem_filter.1 ht
    rwa [← (laid_of_ofTree h).eq_of_ordinal ht hs heq]

/-- A site stands where its statement is, in a `return` if it is marked so. -/
theorem Laid.stands_iff (h : g.Laid) {s : Site} (hs : s ∈ g.sites) {p : Path} {ret : Bool} :
    Stands g.sites s.ordinal p ret ↔ s.stmt = p ∧ s.inReturn = ret := by
  constructor
  · rintro ⟨t, ht, heq, hp⟩
    rwa [← h.eq_of_ordinal ht hs heq]
  · intro hp
    exact ⟨s, hs, rfl, hp⟩

/-- A site that belongs to a `return` is where the exit of that `return` is. -/
theorem Laid.stmt_mem_returns (h : g.Laid) {rs : List Region} (hn : Nested (Stands g.sites) rs)
    {s : Site} (hs : s ∈ g.sites) (hr : s.inReturn = true) (ho : s.ordinal ∈ ordinalsAll rs) :
    s.stmt ∈ returnsAll rs := by
  rcases hn.stands_of_mem ho with ⟨q, hq⟩ | ⟨q, hq, hstands⟩
  · rw [((h.stands_iff hs).1 hq).2] at hr
    cases hr
  · rwa [((h.stands_iff hs).1 hstands).1]

/-- The sites of a `return` that stand right before its exit are all sites of the statement. -/
theorem own_eq_stmtSites (h : ofTree exitEdges tree = .ok g)
    {left earlier behind right : List Region} {own : List Nat} {p : Path}
    (hc : Cut (Stands g.sites) g.region left (earlier ++ own.map .site ++ .ret p :: behind) right)
    (hearlier : Nested (Stands g.sites) earlier) (hbehind : Nested (Stands g.sites) behind)
    (hne : own ≠ []) (hown : ∀ o ∈ own, Stands g.sites o p true) : own = g.stmtSites p := by
  have hg := laid_of_ofTree h
  have hord : ordinalsAll g.region =
      ordinalsAll (left ++ earlier) ++ (own ++ ordinalsAll (behind ++ right)) := by
    simp [hc.ordinals, ordinalsAll_map_site, ordinalsAll, Region.ordinals]
  have hret : (returnsAll (left ++ earlier) ++ p :: returnsAll (behind ++ right)).Nodup := by
    have hnodup := nodup_returns h
    simpa [hc.returns, returnsAll_sites, returnsAll, Region.returns] using hnodup
  rw [List.nodup_append] at hret
  obtain ⟨-, hright, hleft⟩ := hret
  have hsorted : own.Pairwise (· < ·) := by
    have hs := hg.pairwise_region
    rw [hord, List.pairwise_append, List.pairwise_append] at hs
    exact hs.2.1.1
  refine hsorted.eq_of_mem_iff (hg.pairwise_stmtSites p) fun o => ?_
  rw [mem_stmtSites]
  constructor
  · intro ho
    obtain ⟨s, hs, hso, hstmt, -⟩ := hown o ho
    exact ⟨s, hs, hso, hstmt⟩
  · rintro ⟨s, hs, rfl, rfl⟩
    have hr : s.inReturn = true := by
      obtain ⟨o, ho⟩ := List.exists_mem_of_ne_nil _ hne
      obtain ⟨t, ht, -, hstmt, hr⟩ := hown o ho
      rw [inReturn_of_stmt h hs ht hstmt.symm, hr]
    have ho := hg.mem_ordinalsAll hs
    rw [hord, List.mem_append, List.mem_append] at ho
    -- The statements on either side have no exit of this `return`, so they have none of its sites.
    rcases ho with ho | ho | ho
    · have hmem := hg.stmt_mem_returns (hc.before.append hearlier) hs hr ho
      exact absurd rfl (hleft _ hmem _ List.mem_cons_self)
    · exact ho
    · have hmem := hg.stmt_mem_returns (hbehind.append hc.behind) hs hr ho
      exact absurd hmem (List.nodup_cons.1 hright).1

/-- Right before an exit there are the sites of its `return`, behind whole statements. -/
theorem stmtSites_before_exit (h : ofTree exitEdges tree = .ok g) {before behind : List Region}
    {p : Path} (hs : SequenceIn (before ++ .ret p :: behind) g.region) : ∃ earlier : List Region,
      before = earlier ++ (g.stmtSites p).map .site ∧ Nested (Stands g.sites) earlier ∧
        g.stmtSites p ≠ [] ∧ ∀ o ∈ g.stmtSites p, Stands g.sites o p true := by
  obtain ⟨left, right, hc⟩ := (nested_of_ofTree h).cut hs
  obtain ⟨earlier, own, rfl, hearlier, hne, hown, hbehind⟩ := hc.inner.exit
  have heq := own_eq_stmtSites h hc hearlier hbehind hne hown
  subst heq
  exact ⟨earlier, rfl, hearlier, hne, hown⟩

/-- The regions of a function hold its sites from left to right, each once. A site stands in a loop
exactly if it lies below one among the regions. Where the regions leave the function, the sites of
that `return` stand right before, all of them and no other sites that belong to a `return`; and
they leave it for every `return` that has a site. -/
theorem region_linear (h : ofTree exitEdges tree = .ok g) :
    ordinalsAll g.region = List.range g.sites.length ∧
    g.sites.map (·.ordinal) = List.range g.sites.length ∧
    (∀ s ∈ g.sites, s.inLoop = true ↔ BelowLoop s.ordinal g.region) ∧
    (∀ (before behind : List Region) (p : Path), SequenceIn (before ++ .ret p :: behind) g.region →
      tree.returnsAt p = true ∧ g.stmtSites p ≠ [] ∧ ∃ (earlier : List Region) (others : List Nat),
        before = earlier ++ (others ++ g.stmtSites p).map .site ∧
          (∀ o, earlier.getLast? ≠ some (.site o)) ∧
        ∀ s ∈ g.sites, s.ordinal ∈ others ++ g.stmtSites p →
          (s.inReturn = true ↔ s.ordinal ∈ g.stmtSites p)) ∧
    ∀ s ∈ g.sites, s.inReturn = true → ∃ seq, SequenceIn seq g.region ∧ .ret s.stmt ∈ seq := by
  have hg := laid_of_ofTree h
  have hn := nested_of_ofTree h
  refine ⟨hg.region, hg.sites, fun s hs => inLoop_iff_belowLoop h hs,
    fun before behind p hseq => ?_, fun s hs hr =>
      hn.exists_exit (hg.stmt_mem_returns hn hs hr (hg.mem_ordinalsAll hs))⟩
  obtain ⟨nested, rfl, hnested, hne, hown⟩ := stmtSites_before_exit h hseq
  refine ⟨?_, hne, ?_⟩
  · obtain ⟨o, ho⟩ := List.exists_mem_of_ne_nil _ hne
    obtain ⟨s, hs, -, rfl, hr⟩ := hown o ho
    rwa [← inReturn_eq_returnsAt h hs]
  · obtain ⟨earlier, others, rfl, hlast, hplain⟩ := hnested.exists_run
    refine ⟨earlier, others, by simp, hlast, fun s hs ho => ⟨fun hr => ?_, fun ho => ?_⟩⟩
    · refine (List.mem_append.1 ho).resolve_left fun ho => ?_
      obtain ⟨q, hq⟩ := hplain _ ho
      rw [((hg.stands_iff hs).1 hq).2] at hr
      cases hr
    · exact ((hg.stands_iff hs).1 (hown _ ho)).2

end FlowGraph

namespace Sample

/-- A loop with an arm that uses a name and returns a conjunction. -/
def leavesLoop : Value :=
  function [whileLoop "c" [ifElse "d"
    (.node .block [.list [use "y", .node .ret [.node .logicalAnd [name "x", name "y"]]]]) .null],
      use "x"]

/-- The branch in the loop. -/
def leavesLoopBranch : Path := (((place 0).field "body").field "body").item 0

/-- The `return` in its arm. -/
def leavesLoopReturn : Path := ((leavesLoopBranch.field "then").field "body").item 1

/-- The arm leaves the function behind four sites, three of which belong to the `return`, below the
loop. -/
theorem region_leavesLoop :
    FlowGraph.ofTree (.ok true) leavesLoop = .ok (graph leavesLoop) ∧
    SequenceIn ([2, 3, 4, 5].map .site ++ .ret leavesLoopReturn :: []) (graph leavesLoop).region ∧
    (graph leavesLoop).stmtSites leavesLoopReturn = [3, 4, 5] ∧
    (∃ (earlier : List Region) (others : List Nat),
      [2, 3, 4, 5].map .site = earlier ++ (others ++ [3, 4, 5]).map .site ∧
      (∀ o, earlier.getLast? ≠ some (.site o)) ∧ ∀ s ∈ (graph leavesLoop).sites,
        s.ordinal ∈ others ++ [3, 4, 5] → (s.inReturn = true ↔ s.ordinal ∈ [3, 4, 5])) ∧
    (graph leavesLoop).sites.map (·.inLoop) = [true, true, true, true, true, true, false] ∧
    ∀ s ∈ (graph leavesLoop).sites, s.inLoop = true ↔
      BelowLoop s.ordinal (graph leavesLoop).region := by
  have h : FlowGraph.ofTree (.ok true) leavesLoop = .ok (graph leavesLoop) :=
    ofTree_eq (by decide +kernel)
  have hown : (graph leavesLoop).stmtSites leavesLoopReturn = [3, 4, 5] := by decide +kernel
  have hloop :
      (graph leavesLoop).sites.map (·.inLoop) = [true, true, true, true, true, true, false] := by
    decide +kernel
  have hseq : SequenceIn ([2, 3, 4, 5].map .site ++ .ret leavesLoopReturn :: [])
      (graph leavesLoop).region := by
    have hregion :
        (graph leavesLoop).region = [.loop (place 0) [.site 0, .site 1, .branch leavesLoopBranch
        [[2, 3, 4, 5].map .site ++ .ret leavesLoopReturn :: [], []]], .site 6] := by
      with_unfolding_all rfl
    rw [hregion]
    refine .body List.mem_cons_self ?_
    exact .arm (List.mem_cons_of_mem _ (List.mem_cons_of_mem _ List.mem_cons_self))
      List.mem_cons_self .whole
  obtain ⟨-, -, hbelow, hexit, -⟩ := FlowGraph.region_linear h
  obtain ⟨-, -, hrun⟩ := hexit _ _ _ hseq
  rw [hown] at hrun
  exact ⟨h, hseq, hown, hrun, hloop, hbelow⟩

end Sample

end LastUse
