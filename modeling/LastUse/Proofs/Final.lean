import LastUse.Proofs.Flow.Nesting
import LastUse.Proofs.Verdict

/-!
# The final access

`FlowGraph.final_iff` says which site is the final one of a verdict, without a sweep: the last
access outside of `return` statements, unless it may run again, control gets from it to another
access, it stands in a branch of which another arm accesses the binding too, or an access follows
it other than in another arm of a branch. `Final` is this for a sequence of regions, and
`Sweep.Tells` is what a sweep knows of them; both are built up along the nesting of the regions.
-/

namespace LastUse

open Relation (TransGen)

/-! ## Sites in different arms -/

mutual

/-- The branches of a region, each as its arms. -/
def Region.branches : Region → List (List (List Region))
  | .site _ | .ret _ => []
  | .branch _ arms => arms :: armBranches arms
  | .loop _ body => branchesAll body

/-- The branches of a sequence of regions. -/
def branchesAll : List Region → List (List (List Region))
  | [] => []
  | r :: rest => r.branches ++ branchesAll rest

/-- The branches in the arms of a branch. -/
def armBranches : List (List Region) → List (List (List Region))
  | [] => []
  | arm :: rest => branchesAll arm ++ armBranches rest

end

/-- Two sites stand in different arms of a branch. -/
def Apart (arms : List (List Region)) (m o : Nat) : Prop :=
  ∃ before arm behind, arms = before ++ arm :: behind ∧ m ∈ ordinalsAll arm ∧
    o ∈ armOrdinals (before ++ behind)

/-- Two sites stand in different arms of some branch of a sequence of regions. -/
def Diverge (rs : List Region) (m o : Nat) : Prop := ∃ arms ∈ branchesAll rs, Apart arms m o

/-- The sites of the arms of a branch are those of each arm. -/
theorem mem_armOrdinals {arms : List (List Region)} {o : Nat} :
    o ∈ armOrdinals arms ↔ ∃ arm ∈ arms, o ∈ ordinalsAll arm := by
  induction arms with
  | nil => simp [armOrdinals]
  | cons arm rest ih => simp [armOrdinals, ih]

/-- The branches in the arms of a branch are those in each arm. -/
theorem mem_armBranches {arms : List (List Region)} {x : List (List Region)} :
    x ∈ armBranches arms ↔ ∃ arm ∈ arms, x ∈ branchesAll arm := by
  induction arms with
  | nil => simp [armBranches]
  | cons arm rest ih => simp [armBranches, ih]

/-- Sites in different arms of a branch are sites of the branch. -/
theorem Apart.mem {arms : List (List Region)} {m o : Nat} (h : Apart arms m o) :
    m ∈ armOrdinals arms ∧ o ∈ armOrdinals arms := by
  obtain ⟨before, arm, behind, rfl, hm, ho⟩ := h
  simp only [mem_armOrdinals, List.mem_append, List.mem_cons] at ho ⊢
  grind

/-- Two sites stand apart if one of them is in the first arm and the other in a later one, or if
later arms tell them apart. -/
theorem Apart.cons {arm : List Region} {rest : List (List Region)} {m o : Nat} :
    Apart (arm :: rest) m o ↔ (m ∈ ordinalsAll arm ∧ o ∈ armOrdinals rest) ∨
      (o ∈ ordinalsAll arm ∧ m ∈ armOrdinals rest) ∨ Apart rest m o := by
  constructor
  · rintro ⟨_ | ⟨first, before⟩, x, behind, he, hm, ho⟩
    · cases he
      exact .inl ⟨hm, ho⟩
    · cases he
      rw [List.cons_append, armOrdinals, List.mem_append] at ho
      rcases ho with ho | ho
      · exact .inr (.inl ⟨ho, mem_armOrdinals.2 ⟨x, by simp, hm⟩⟩)
      · exact .inr (.inr ⟨before, x, behind, rfl, hm, ho⟩)
  · rintro (⟨hm, ho⟩ | ⟨ho, hm⟩ | ⟨before, x, behind, rfl, hm, ho⟩)
    · exact ⟨[], arm, rest, rfl, hm, ho⟩
    · obtain ⟨x, hx, hmx⟩ := mem_armOrdinals.1 hm
      obtain ⟨before, behind, rfl⟩ := List.append_of_mem hx
      exact ⟨arm :: before, x, behind, rfl, hmx, by simp [armOrdinals, ho]⟩
    · exact ⟨arm :: before, x, behind, rfl, hm, by simp [armOrdinals, ho]⟩

/-- Sites of one arm are not apart. -/
theorem Apart.not_of_mem {arms : List (List Region)} {arm : List Region} {m o : Nat}
    (hn : (armOrdinals arms).Nodup) (ha : arm ∈ arms) (hm : m ∈ ordinalsAll arm)
    (ho : o ∈ ordinalsAll arm) : ¬ Apart arms m o := by
  induction arms with
  | nil => simp at ha
  | cons x rest ih =>
    rw [armOrdinals, List.nodup_append] at hn
    obtain ⟨-, hrest, hdisj⟩ := hn
    rw [Apart.cons]
    rcases List.mem_cons.1 ha with rfl | ha
    · rintro (⟨-, h⟩ | ⟨-, h⟩ | h)
      · exact hdisj o ho o h rfl
      · exact hdisj m hm m h rfl
      · exact hdisj m hm m h.mem.1 rfl
    · rintro (⟨h, -⟩ | ⟨h, -⟩ | h)
      · exact hdisj m h m (mem_armOrdinals.2 ⟨arm, ha, hm⟩) rfl
      · exact hdisj o h o (mem_armOrdinals.2 ⟨arm, ha, ho⟩) rfl
      · exact ih hrest ha h

mutual

/-- The sites in the arms of a branch of a region are in the region, in the same order. -/
theorem Region.sublist_of_branches {arms : List (List Region)} :
    ∀ {r : Region}, arms ∈ r.branches → (armOrdinals arms).Sublist r.ordinals
  | .site _, h | .ret _, h => by simp [Region.branches] at h
  | .branch _ inner, h => by
    rw [Region.branches, List.mem_cons] at h
    rw [Region.ordinals]
    rcases h with rfl | h
    · exact .refl _
    · exact sublist_of_armBranches h
  | .loop _ body, h => by
    rw [Region.branches] at h
    rw [Region.ordinals]
    exact sublist_of_branchesAll h

/-- The sites of a branch are among those of the sequence that it stands in, in order. -/
theorem sublist_of_branchesAll {arms : List (List Region)} :
    ∀ {rs : List Region}, arms ∈ branchesAll rs → (armOrdinals arms).Sublist (ordinalsAll rs)
  | [], h => by simp [branchesAll] at h
  | r :: rest, h => by
    rw [branchesAll, List.mem_append] at h
    rw [ordinalsAll]
    rcases h with h | h
    · exact (Region.sublist_of_branches h).trans (List.sublist_append_left _ _)
    · exact (sublist_of_branchesAll h).trans (List.sublist_append_right _ _)

/-- The sites of a branch in an arm are among those of the arms, in order. -/
theorem sublist_of_armBranches {arms : List (List Region)} :
    ∀ {inner : List (List Region)}, arms ∈ armBranches inner →
      (armOrdinals arms).Sublist (armOrdinals inner)
  | [], h => by simp [armBranches] at h
  | arm :: rest, h => by
    rw [armBranches, List.mem_append] at h
    rw [armOrdinals]
    rcases h with h | h
    · exact (sublist_of_branchesAll h).trans (List.sublist_append_left _ _)
    · exact (sublist_of_armBranches h).trans (List.sublist_append_right _ _)

end

namespace Diverge

variable {rs a b : List Region} {arms : List (List Region)} {p : Path} {m o : Nat}

/-- Sites that diverge are sites of the sequence. -/
theorem mem (h : Diverge rs m o) : m ∈ ordinalsAll rs ∧ o ∈ ordinalsAll rs := by
  obtain ⟨arms, ha, h⟩ := h
  have hs := sublist_of_branchesAll ha
  exact ⟨hs.subset h.mem.1, hs.subset h.mem.2⟩

/-- The branches of two sequences are those of the first, then those of the second. -/
theorem branchesAll_append (a b : List Region) :
    branchesAll (a ++ b) = branchesAll a ++ branchesAll b := by
  induction a with
  | nil => rfl
  | cons r rest ih => simp [branchesAll, ih]

/-- Sites diverge in two sequences if they do in one of them. -/
theorem append : Diverge (a ++ b) m o ↔ Diverge a m o ∨ Diverge b m o := by
  simp only [Diverge, branchesAll_append, List.mem_append]
  grind

/-- Sites outside of all branches do not diverge. -/
theorem not_sites (ordinals : List Nat) : ¬ Diverge (ordinals.map .site) m o := by
  induction ordinals with
  | nil => simp [Diverge, branchesAll]
  | cons x rest ih => simpa [Diverge, branchesAll, Region.branches] using ih

/-- Sites diverge in a loop if they do in its body. -/
theorem loop : Diverge [.loop p rs] m o ↔ Diverge rs m o := by
  simp [Diverge, branchesAll, Region.branches]

/-- Sites diverge in a branch if they stand in different arms, or diverge in one of them. -/
theorem branch :
    Diverge [.branch p arms] m o ↔ Apart arms m o ∨ ∃ arm ∈ arms, Diverge arm m o := by
  simp only [Diverge, branchesAll, Region.branches, List.append_nil, List.mem_cons,
    mem_armBranches]
  grind

/-- A site of an arm diverges from those of the other arms, and from others of its own arm as in
that arm. -/
theorem branch_of_mem {before behind : List (List Region)} {arm : List Region}
    (hn : (armOrdinals (before ++ arm :: behind)).Nodup) (hm : m ∈ ordinalsAll arm) :
    Diverge [.branch p (before ++ arm :: behind)] m o ↔
      o ∈ armOrdinals (before ++ behind) ∨ Diverge arm m o := by
  have harm : arm ∈ before ++ arm :: behind := by simp
  rw [branch]
  constructor
  · rintro (ha | ⟨x, hx, hd⟩)
    · obtain ⟨x, hx, ho⟩ := mem_armOrdinals.1 ha.mem.2
      rw [List.mem_append, List.mem_cons] at hx
      rcases hx with hx | rfl | hx
      · exact .inl (mem_armOrdinals.2 ⟨x, by simp [hx], ho⟩)
      · exact absurd ha (Apart.not_of_mem hn harm hm ho)
      · exact .inl (mem_armOrdinals.2 ⟨x, by simp [hx], ho⟩)
    · have hx' : x = arm ∨ x ∈ before ++ behind := by
        simp only [List.mem_append, List.mem_cons] at hx ⊢
        grind
      rcases hx' with rfl | hx'
      · exact .inr hd
      · -- The site would stand in two arms.
        have ha : Apart (before ++ arm :: behind) m m :=
          ⟨before, arm, behind, rfl, hm, mem_armOrdinals.2 ⟨x, hx', hd.mem.1⟩⟩
        exact absurd ha (Apart.not_of_mem hn harm hm hm)
  · rintro (ho | hd)
    · exact .inl ⟨before, arm, behind, rfl, hm, ho⟩
    · exact .inr ⟨arm, harm, hd⟩

end Diverge

/-! ## The final access of a sequence of regions -/

/-- A site accesses the binding outside of a `return`. -/
def Ground.Plain (gr : Ground) (o : Nat) : Prop :=
  (gr.access o).accesses = true ∧ (gr.access o).inReturn = false

/-- A site is the final access of a sequence of regions. -/
structure Final (gr : Ground) (rs : List Region) (m : Nat) : Prop where
  mem : m ∈ ordinalsAll rs
  plain : gr.Plain m
  once : gr.repeats m = false
  greatest : ∀ o ∈ ordinalsAll rs, gr.Plain o → o ≤ m
  alone : ∀ o ∈ ordinalsAll rs, gr.Plain o → ¬ Diverge rs m o
  behind : ∀ o ∈ ordinalsAll rs, (gr.access o).accesses = true → m < o → Diverge rs m o

namespace Final

variable {gr : Ground} {rs a b : List Region} {arms : List (List Region)} {p : Path} {m o : Nat}

/-- The final access of two sequences is that of the second, or that of the first if the second
does not access the binding. -/
theorem append (hlt : ∀ x ∈ ordinalsAll a, ∀ y ∈ ordinalsAll b, x < y) :
    Final gr (a ++ b) m ↔
      Final gr b m ∨ Final gr a m ∧ ∀ o ∈ ordinalsAll b, (gr.access o).accesses = false := by
  have hab : ∀ {x}, x ∈ ordinalsAll a → x ∉ ordinalsAll b :=
    fun ha hb => Nat.lt_irrefl _ (hlt _ ha _ hb)
  constructor
  · intro h
    have hmem := h.mem
    rw [ordinalsAll_append, List.mem_append] at hmem
    rcases hmem with hm | hm
    · refine .inr ⟨⟨hm, h.plain, h.once, ?_, ?_, ?_⟩, ?_⟩
      · exact fun o ho => h.greatest o (by simp [ho])
      · exact fun o ho hp hd => h.alone o (by simp [ho]) hp (Diverge.append.2 (.inl hd))
      · intro o ho hacc hmo
        rcases Diverge.append.1 (h.behind o (by simp [ho]) hacc hmo) with hd | hd
        · exact hd
        · exact absurd hd.mem.1 (hab hm)
      · intro o ho
        rw [← Bool.not_eq_true]
        intro hacc
        rcases Diverge.append.1 (h.behind o (by simp [ho]) hacc (hlt m hm o ho)) with hd | hd
        · exact hab hd.mem.2 ho
        · exact hab hm hd.mem.1
    · refine .inl ⟨hm, h.plain, h.once, ?_, ?_, ?_⟩
      · exact fun o ho => h.greatest o (by simp [ho])
      · exact fun o ho hp hd => h.alone o (by simp [ho]) hp (Diverge.append.2 (.inr hd))
      · intro o ho hacc hmo
        rcases Diverge.append.1 (h.behind o (by simp [ho]) hacc hmo) with hd | hd
        · exact absurd hm (hab hd.mem.1)
        · exact hd
  · rintro (h | ⟨h, hnone⟩)
    · refine ⟨by simp [h.mem], h.plain, h.once, ?_, ?_, ?_⟩ <;> intro o ho <;>
        rw [ordinalsAll_append, List.mem_append] at ho
      · intro hp
        rcases ho with ho | ho
        · exact Nat.le_of_lt (hlt o ho m h.mem)
        · exact h.greatest o ho hp
      · intro hp hd
        rcases Diverge.append.1 hd with hd | hd
        · exact hab hd.mem.1 h.mem
        · exact h.alone o hd.mem.2 hp hd
      · intro hacc hmo
        rcases ho with ho | ho
        · exact absurd hmo (Nat.lt_asymm (hlt o ho m h.mem))
        · exact Diverge.append.2 (.inr (h.behind o ho hacc hmo))
    · have hb : ∀ {o}, (gr.access o).accesses = true → o ∈ ordinalsAll a ∨ o ∈ ordinalsAll b →
          o ∈ ordinalsAll a := by
        rintro o hacc (ho | ho)
        · exact ho
        · simp [hnone o ho] at hacc
      refine ⟨by simp [h.mem], h.plain, h.once, ?_, ?_, ?_⟩ <;> intro o ho <;>
        rw [ordinalsAll_append, List.mem_append] at ho
      · exact fun hp => h.greatest o (hb hp.1 ho) hp
      · intro hp hd
        rcases Diverge.append.1 hd with hd | hd
        · exact h.alone o (hb hp.1 ho) hp hd
        · exact hab h.mem hd.mem.1
      · exact fun hacc hmo => Diverge.append.2 (.inl (h.behind o (hb hacc ho) hacc hmo))

/-- A site is the final access of itself, if it accesses the binding outside of a `return` and does
not run again. -/
theorem site : Final gr [.site o] m ↔ o = m ∧ gr.Plain o ∧ gr.repeats o = false := by
  have hd : ¬ Diverge [.site o] m o := Diverge.not_sites [o]
  constructor
  · intro h
    have hm : m = o := by simpa [ordinalsAll, Region.ordinals] using h.mem
    exact ⟨hm.symm, hm ▸ h.plain, hm ▸ h.once⟩
  · rintro ⟨rfl, hp, hr⟩
    refine ⟨by simp [ordinalsAll, Region.ordinals], hp, hr, ?_, ?_, ?_⟩ <;>
      simp only [ordinalsAll, Region.ordinals, List.append_nil, List.mem_singleton, forall_eq]
    · exact fun _ => Nat.le_refl _
    · exact fun _ => hd
    · exact fun _ h => absurd h (Nat.lt_irrefl _)

/-- The final access of a loop is that of its body. -/
theorem loop : Final gr [.loop p rs] m ↔ Final gr rs m := by
  have ho : ordinalsAll [.loop p rs] = ordinalsAll rs := by simp [ordinalsAll, Region.ordinals]
  constructor
  · rintro ⟨hm, hp, hr, hg, ha, hb⟩
    simp only [ho, Diverge.loop] at hm hg ha hb
    exact ⟨hm, hp, hr, hg, ha, hb⟩
  · rintro ⟨hm, hp, hr, hg, ha, hb⟩
    refine ⟨?_, hp, hr, ?_, ?_, ?_⟩ <;> simpa only [ho, Diverge.loop]

/-- The final access of a branch is that of an arm, if no other arm accesses the binding outside of
a `return`. -/
theorem branch (hn : (armOrdinals arms).Nodup) : Final gr [.branch p arms] m ↔
    ∃ before arm behind, arms = before ++ arm :: behind ∧ Final gr arm m ∧
      ∀ o ∈ armOrdinals (before ++ behind), ¬ gr.Plain o := by
  have hord : ∀ {o}, o ∈ ordinalsAll [.branch p arms] ↔ o ∈ armOrdinals arms := by
    simp [ordinalsAll, Region.ordinals]
  have hsplit : ∀ {before arm behind o}, arms = before ++ arm :: behind →
      (o ∈ armOrdinals arms ↔ o ∈ ordinalsAll arm ∨ o ∈ armOrdinals (before ++ behind)) := by
    rintro before arm behind o rfl
    simp only [mem_armOrdinals, List.mem_append, List.mem_cons]
    grind
  constructor
  · intro h
    obtain ⟨arm, harm, hm⟩ := mem_armOrdinals.1 (hord.1 h.mem)
    obtain ⟨before, behind, rfl⟩ := List.append_of_mem harm
    have hd : ∀ {o}, Diverge [.branch p (before ++ arm :: behind)] m o ↔
        o ∈ armOrdinals (before ++ behind) ∨ Diverge arm m o := Diverge.branch_of_mem hn hm
    have hin :
        ∀ {o}, o ∈ ordinalsAll arm → o ∈ ordinalsAll [.branch p (before ++ arm :: behind)] :=
      fun ho => hord.2 ((hsplit rfl).2 (.inl ho))
    refine ⟨before, arm, behind, rfl, ⟨hm, h.plain, h.once, ?_, ?_, ?_⟩, ?_⟩
    · exact fun o ho => h.greatest o (hin ho)
    · exact fun o ho hp hdiv => h.alone o (hin ho) hp (hd.2 (.inr hdiv))
    · intro o ho hacc hmo
      rcases hd.1 (h.behind o (hin ho) hacc hmo) with hout | hdiv
      · exact absurd ⟨before, arm, behind, rfl, hm, hout⟩ (Apart.not_of_mem hn harm hm ho)
      · exact hdiv
    · exact fun o ho hp => h.alone o (hord.2 ((hsplit rfl).2 (.inr ho))) hp (hd.2 (.inl ho))
  · rintro ⟨before, arm, behind, rfl, h, hnone⟩
    have hd : ∀ {o}, Diverge [.branch p (before ++ arm :: behind)] m o ↔
        o ∈ armOrdinals (before ++ behind) ∨ Diverge arm m o := Diverge.branch_of_mem hn h.mem
    have hcase : ∀ {o}, o ∈ ordinalsAll [.branch p (before ++ arm :: behind)] →
        o ∈ ordinalsAll arm ∨ o ∈ armOrdinals (before ++ behind) :=
      fun ho => (hsplit rfl).1 (hord.1 ho)
    refine ⟨hord.2 ((hsplit rfl).2 (.inl h.mem)), h.plain, h.once, ?_, ?_, ?_⟩
    · intro o ho hp
      exact (hcase ho).elim (fun ho => h.greatest o ho hp) fun ho => absurd hp (hnone o ho)
    · intro o ho hp hdiv
      rcases hd.1 hdiv with hout | hdiv
      · exact hnone o hout hp
      · exact h.alone o hdiv.mem.2 hp hdiv
    · intro o ho hacc hmo
      exact hd.2 ((hcase ho).symm.imp_right fun ho => h.behind o ho hacc hmo)

end Final

/-! ## What a sweep tells -/

/-- What a sweep over a sequence of regions tells of them, if it begins with a candidate. -/
structure Sweep.Tells (gr : Ground) (rs : List Region) (incoming : Option Nat) (s : Sweep) :
    Prop where
  touched : s.touched = true ↔ ∃ o ∈ ordinalsAll rs, (gr.access o).accesses = true
  accessed : s.accessed = true ↔ ∃ o ∈ ordinalsAll rs, gr.Plain o
  candidate : ∀ m, s.candidate = some m ↔
    Final gr rs m ∨ incoming = some m ∧ ∀ o ∈ ordinalsAll rs, (gr.access o).accesses = false
  frozen : ∀ c ∈ s.frozen, (gr.access c).inReturn = true

namespace Sweep.Tells

variable {gr : Ground} {rs a b : List Region} {incoming : Option Nat} {s t : Sweep} {p : Path}

/-- A sweep over nothing keeps its candidate. -/
theorem nil : (Sweep.still incoming).Tells gr [] incoming where
  touched := by simp [Sweep.still, ordinalsAll]
  accessed := by simp [Sweep.still, ordinalsAll]
  candidate m := by
    have : ¬ Final gr [] m := fun h => by simpa [ordinalsAll] using h.mem
    simp [Sweep.still, ordinalsAll, this]
  frozen := by simp [Sweep.still]

/-- A sweep over two sequences tells of both what the sweeps over each of them tell. -/
theorem andThen (hlt : ∀ x ∈ ordinalsAll a, ∀ y ∈ ordinalsAll b, x < y)
    (hs : s.Tells gr a incoming) (ht : t.Tells gr b s.candidate) :
    (s.andThen t).Tells gr (a ++ b) incoming where
  touched := by
    simp only [Sweep.andThen, Bool.or_eq_true, hs.touched, ht.touched, ordinalsAll_append,
      List.mem_append]
    grind
  accessed := by
    simp only [Sweep.andThen, Bool.or_eq_true, hs.accessed, ht.accessed, ordinalsAll_append,
      List.mem_append]
    grind
  candidate m := by
    rw [show (s.andThen t).candidate = t.candidate from rfl, ht.candidate, hs.candidate,
      Final.append hlt, ordinalsAll_append]
    simp only [List.mem_append]
    grind
  frozen c hc := (List.mem_append.1 hc).elim (hs.frozen c) (ht.frozen c)

/-- A sweep over a loop tells what it tells of the body. -/
theorem loop (hs : s.Tells gr rs incoming) : s.Tells gr [.loop p rs] incoming := by
  have ho : ordinalsAll [.loop p rs] = ordinalsAll rs := by simp [ordinalsAll, Region.ordinals]
  exact ⟨ho ▸ hs.touched, ho ▸ hs.accessed, fun m => by rw [hs.candidate, Final.loop, ho],
    hs.frozen⟩

/-- The sweep over a site outside of a `return`. -/
theorem site {o : Nat} (ho : (gr.access o).inReturn = false) :
    (Sweep.site gr o incoming).Tells gr [.site o] incoming := by
  have hord : ordinalsAll [.site o] = [o] := rfl
  cases hacc : (gr.access o).accesses with
  | false =>
    have hf : ∀ m, ¬ Final gr [.site o] m := fun m h => by
      have := (Final.site.1 h).2.1.1
      simp [hacc] at this
    refine ⟨?_, ?_, fun m => ?_, ?_⟩ <;>
      simp [Sweep.site, Sweep.still, hacc, hord, hf, Ground.Plain]
  | true =>
    cases hr : gr.repeats o with
    | false =>
      refine ⟨?_, ?_, fun m => ?_, ?_⟩ <;>
        simp [Sweep.site, hacc, ho, hr, hord, Final.site, Ground.Plain]
    | true =>
      refine ⟨?_, ?_, fun m => ?_, ?_⟩ <;>
        simp [Sweep.site, hacc, ho, hr, hord, Final.site, Ground.Plain]

/-- A sweep that has met no access outside of a `return` was over regions without one. -/
theorem accessed_eq_false (hs : s.Tells gr rs incoming) :
    s.accessed = false ↔ ∀ o ∈ ordinalsAll rs, ¬ gr.Plain o := by
  rw [← Bool.not_eq_true, hs.accessed]
  simp

/-- Where the binding is accessed outside of a `return`, the candidate is the final access. -/
theorem candidate_of_accessed (hs : s.Tells gr rs incoming) (ha : s.accessed = true) {m : Nat} :
    s.candidate = some m ↔ Final gr rs m := by
  obtain ⟨o, ho, hacc, -⟩ := hs.accessed.1 ha
  rw [hs.candidate, or_iff_left]
  rintro ⟨-, hnone⟩
  simp [hnone o ho] at hacc

/-- The candidate behind a branch of which some arm accesses the binding. -/
theorem survivor_eq_some {sweeps : List Sweep} {m : Nat} (ht : sweeps.any (·.touched) = true) :
    survivor incoming sweeps = some m ↔ ∃ before arm behind, sweeps = before ++ arm :: behind ∧
      arm.accessed = true ∧ arm.candidate = some m ∧ ∀ x ∈ before ++ behind,
        x.accessed = false := by
  rw [survivor, if_pos ht]
  constructor
  · split
    · next arm hf =>
      intro hc
      obtain ⟨before, behind, rfl, hbefore, harm, hbehind⟩ := List.filter_eq_cons_iff.1 hf
      refine ⟨before, arm, behind, rfl, harm, hc, fun x hx => ?_⟩
      rw [← Bool.not_eq_true]
      rcases List.mem_append.1 hx with hx | hx
      · exact hbefore x hx
      · exact List.filter_eq_nil_iff.1 hbehind x hx
    · simp
  · rintro ⟨before, arm, behind, rfl, harm, hc, hnone⟩
    have hf : (before ++ arm :: behind).filter (·.accessed) = [arm] := by
      rw [List.filter_eq_cons_iff]
      refine ⟨before, behind, rfl, fun x hx => ?_, harm,
        List.filter_eq_nil_iff.2 fun x hx => ?_⟩ <;> rw [hnone x (by simp [hx])] <;>
        exact Bool.false_ne_true
    simp only [hf, hc]

/-- What is told of some arm of a branch is told of a site in it. -/
theorem any_arms {arms : List (List Region)} {f : List Region → Sweep} {q : Sweep → Bool}
    {P : Nat → Prop} (hq : ∀ arm ∈ arms, q (f arm) = true ↔ ∃ o ∈ ordinalsAll arm, P o) :
    (arms.map f).any q = true ↔ ∃ o ∈ ordinalsAll [.branch p arms], P o := by
  simp only [List.any_map, List.any_eq_true, Function.comp_apply, ordinalsAll, Region.ordinals,
    List.append_nil, mem_armOrdinals]
  constructor
  · rintro ⟨arm, harm, ht⟩
    obtain ⟨o, ho, hP⟩ := (hq arm harm).1 ht
    exact ⟨o, ⟨arm, harm, ho⟩, hP⟩
  · rintro ⟨o, ⟨arm, harm, ho⟩, hP⟩
    exact ⟨arm, harm, (hq arm harm).2 ⟨o, ho, hP⟩⟩

/-- The sweep over a branch, from those over its arms. -/
theorem branch {arms : List (List Region)} {f : List Region → Sweep}
    (hn : (armOrdinals arms).Nodup) (hf : ∀ arm ∈ arms, (f arm).Tells gr arm incoming) :
    (Sweep.ofArms incoming (arms.map f)).Tells gr [.branch p arms] incoming := by
  have htouched : (arms.map f).any (·.touched) = true ↔
      ∃ o ∈ ordinalsAll [.branch p arms], (gr.access o).accesses = true :=
    any_arms fun arm harm => (hf arm harm).touched
  refine ⟨htouched, any_arms fun arm harm => (hf arm harm).accessed, fun m => ?_, fun c hc => ?_⟩
  · change survivor incoming (arms.map f) = some m ↔ _
    cases ht : (arms.map f).any (·.touched) with
    | false =>
      have hnone : ∀ o ∈ ordinalsAll [.branch p arms], (gr.access o).accesses = false := by
        intro o ho
        rw [← Bool.not_eq_true]
        intro hacc
        have := htouched.2 ⟨o, ho, hacc⟩
        simp [ht] at this
      have hfinal : ¬ Final gr [.branch p arms] m := fun h => by
        have := hnone m h.mem
        simp [h.plain.1] at this
      simp only [survivor, ht, hfinal, false_or]
      simpa using fun _ => hnone
    | true =>
      have hsome : ¬ ∀ o ∈ ordinalsAll [.branch p arms], (gr.access o).accesses = false := by
        obtain ⟨o, ho, hacc⟩ := htouched.1 ht
        exact fun h => by simp [h o ho] at hacc
      rw [survivor_eq_some ht, Final.branch hn, or_iff_left fun h => hsome h.2]
      constructor
      · rintro ⟨_, _, _, he, hacc, hc, hnone⟩
        obtain ⟨before, rest, rfl, rfl, hrest⟩ := List.map_eq_append_iff.1 he
        obtain ⟨arm, behind, rfl, rfl, rfl⟩ := List.map_eq_cons_iff.1 hrest
        refine ⟨before, arm, behind, rfl, ?_, fun o ho => ?_⟩
        · exact ((hf arm (by simp)).candidate_of_accessed hacc).1 hc
        · obtain ⟨x, hx, ho⟩ := mem_armOrdinals.1 ho
          have hin : x ∈ before ++ arm :: behind := by
            simp only [List.mem_append, List.mem_cons] at hx ⊢
            exact hx.imp_right .inr
          refine (hf x hin).accessed_eq_false.1 (hnone _ ?_) o ho
          rw [← List.map_append]
          exact List.mem_map_of_mem hx
      · rintro ⟨before, arm, behind, rfl, hfinal, hnone⟩
        have harm := hf arm (by simp)
        have hacc : (f arm).accessed = true := harm.accessed.2 ⟨m, hfinal.mem, hfinal.plain⟩
        refine ⟨before.map f, f arm, behind.map f, by simp, hacc,
          (harm.candidate_of_accessed hacc).2 hfinal, fun y hy => ?_⟩
        rw [← List.map_append] at hy
        obtain ⟨x, hx, rfl⟩ := List.mem_map.1 hy
        have hin : x ∈ before ++ arm :: behind := by
          simp only [List.mem_append, List.mem_cons] at hx ⊢
          exact hx.imp_right .inr
        exact (hf x hin).accessed_eq_false.2 fun o ho => hnone o (mem_armOrdinals.2 ⟨x, hx, ho⟩)
  · obtain ⟨_, hm, hc⟩ := List.mem_flatMap.1 hc
    obtain ⟨arm, harm, rfl⟩ := List.mem_map.1 hm
    exact (hf arm harm).frozen c hc

/-- A sweep that accesses the binding only in a `return` loses its candidate. -/
theorem of_returns (hplain : ∀ o ∈ ordinalsAll rs, ¬ gr.Plain o) (ha : s.accessed = false)
    (ht : s.touched = true ↔ ∃ o ∈ ordinalsAll rs, (gr.access o).accesses = true)
    (hc : s.candidate = if s.touched then none else incoming)
    (hf : ∀ c ∈ s.frozen, (gr.access c).inReturn = true) : s.Tells gr rs incoming where
  touched := ht
  frozen := hf
  accessed := by simpa [ha] using hplain
  candidate m := by
    have hf : ¬ Final gr rs m := fun h => hplain m h.mem h.plain
    have hnone : s.touched = false ↔ ∀ o ∈ ordinalsAll rs, (gr.access o).accesses = false := by
      rw [← Bool.not_eq_true, ht]
      simp
    rw [hc, ← hnone]
    cases s.touched <;> simp [hf]

end Sweep.Tells

/-- Of three sweeps, two may be joined first. -/
theorem Sweep.andThen_assoc (a b c : Sweep) :
    (a.andThen b).andThen c = a.andThen (b.andThen c) := by
  simp [Sweep.andThen, Bool.or_assoc]

/-- A sweep over nothing adds nothing. -/
theorem Sweep.still_andThen (a : Sweep) (candidate : Option Nat) :
    (still candidate).andThen a = a := by
  simp [Sweep.andThen, Sweep.still]

/-- The second of two sequences is swept with the candidate that the first one leaves. -/
theorem sweepAll_append (gr : Ground) (a b : List Region) (candidate : Option Nat) :
    sweepAll gr (a ++ b) candidate =
      (sweepAll gr a candidate).andThen (sweepAll gr b (sweepAll gr a candidate).candidate) := by
  induction a generalizing candidate with
  | nil => rw [List.nil_append, sweepAll, Sweep.still_andThen, Sweep.still]
  | cons r rest ih =>
    rw [List.cons_append, sweepAll, ih, sweepAll, Sweep.andThen_assoc]
    rfl

/-- A sweep over a single region is that of the region. -/
theorem sweepAll_singleton (gr : Ground) (r : Region) (candidate : Option Nat) :
    sweepAll gr [r] candidate = r.sweep gr candidate := by
  simp [sweepAll, Sweep.andThen, Sweep.still]

/-- What a sweep knows of sites fits the statements that they belong to. -/
structure Ground.Fits (gr : Ground) (stands : Nat → Path → Bool → Prop) : Prop where
  plain {o : Nat} {p : Path} : stands o p false → (gr.access o).inReturn = false
  ret {o : Nat} {p : Path} : stands o p true → (gr.access o).accesses = true →
    (gr.access o).inReturn = true
  stmt {o : Nat} {p : Path} : stands o p true → gr.stmt? o = some p
  /-- No access outside of a `return` has the place of one. -/
  apart {o c : Nat} {p : Path} : stands o p true → gr.Plain c → gr.stmt? c ≠ some p

/-- What a sweep over some sites of a `return` ends with. -/
structure Sweep.InReturn (gr : Ground) (ordinals : List Nat) (incoming : Option Nat) (s : Sweep) :
    Prop where
  accessed : s.accessed = false
  touched : s.touched = true ↔ ∃ o ∈ ordinals, (gr.access o).accesses = true
  candidate : s.candidate = incoming ∧ s.touched = false ∨
    (∃ c ∈ ordinals, s.candidate = some c ∧ (gr.access c).inReturn = true) ∧ s.touched = true
  frozen : s.frozen = []

namespace Ground.Fits

variable {gr : Ground} {stands : Nat → Path → Bool → Prop} {incoming : Option Nat} {p : Path}
  {ordinals : List Nat}

/-- The sweep over the sites of a `return` ends with the last of them that accesses the binding. -/
theorem inReturn_sites (h : gr.Fits stands) (ho : ∀ o ∈ ordinals, stands o p true) :
    (sweepAll gr (ordinals.map .site) incoming).InReturn gr ordinals incoming := by
  induction ordinals generalizing incoming with
  | nil =>
    rw [List.map_nil, sweepAll]
    exact ⟨rfl, by simp [Sweep.still], .inl ⟨rfl, rfl⟩, rfl⟩
  | cons o rest ih =>
    rw [List.map_cons, sweepAll, Region.sweep]
    cases hacc : (gr.access o).accesses with
    | false =>
      have hs : Sweep.site gr o incoming = .still incoming := by simp [Sweep.site, hacc]
      obtain ⟨ha, ht, hc, hf⟩ := @ih incoming fun o hm => ho o (List.mem_cons_of_mem _ hm)
      rw [hs, Sweep.still_andThen]
      refine ⟨ha, by simpa [hacc, Sweep.still] using ht, hc.imp_right ?_, hf⟩
      rintro ⟨⟨c, hm, hc⟩, ht⟩
      exact ⟨⟨c, List.mem_cons_of_mem _ hm, hc⟩, ht⟩
    | true =>
      have hret := h.ret (ho o List.mem_cons_self) hacc
      have hs : Sweep.site gr o incoming = ⟨some o, true, false, [], [o], [], []⟩ := by
        simp [Sweep.site, hacc, hret]
      obtain ⟨ha, -, hc, hf⟩ := @ih (some o) fun o hm => ho o (List.mem_cons_of_mem _ hm)
      rw [hs]
      refine ⟨by simp [Sweep.andThen, ha], by simp [Sweep.andThen, hacc], .inr ⟨?_, rfl⟩, hf⟩
      rcases hc with ⟨hc, -⟩ | ⟨⟨c, hm, hc⟩, -⟩
      · exact ⟨o, List.mem_cons_self, hc, hret⟩
      · exact ⟨c, List.mem_cons_of_mem _ hm, hc⟩

end Ground.Fits

/-- A sweep over a sequence of regions tells what is the final access, whatever it begins with. -/
def Ground.Told (gr : Ground) (rs : List Region) : Prop :=
  ∀ incoming : Option Nat, (∀ c ∈ incoming, gr.Plain c) →
    (sweepAll gr rs incoming).Tells gr rs incoming

namespace Ground.Told

variable {gr : Ground} {stands : Nat → Path → Bool → Prop} {p : Path} {rs a b : List Region}

/-- The parts of a sequence are swept one after the other, each from what the one before leaves. -/
theorem append (hs : (ordinalsAll (a ++ b)).Pairwise (· < ·)) (ha : gr.Told a)
    (hb : (ordinalsAll b).Pairwise (· < ·) → gr.Told b) : gr.Told (a ++ b) := by
  intro incoming hi
  rw [ordinalsAll_append, List.pairwise_append] at hs
  have ha := ha incoming hi
  rw [sweepAll_append]
  refine ha.andThen hs.2.2 (hb hs.2.1 _ fun c hc => ?_)
  rcases (ha.candidate c).1 hc with hf | ⟨hc, -⟩
  · exact hf.plain
  · exact hi c hc

/-- A sweep over one site outside of a `return` tells whether it is the final access. -/
theorem site {o : Nat} (ho : (gr.access o).inReturn = false) : gr.Told [.site o] := by
  intro incoming _
  rw [sweepAll_singleton, Region.sweep]
  exact .site ho

/-- A sweep over a loop tells the final access if one over its body does. -/
theorem loop (hb : gr.Told rs) : gr.Told [.loop p rs] := by
  intro incoming hi
  rw [sweepAll_singleton, Region.sweep]
  exact (hb incoming hi).loop

/-- A sweep over a branch tells the final access if those over its arms do. -/
theorem branch {arms : List (List Region)} (hn : (armOrdinals arms).Nodup)
    (ha : ∀ arm ∈ arms, gr.Told arm) : gr.Told [.branch p arms] := by
  intro incoming hi
  rw [sweepAll_singleton, Region.sweep, sweepArms_eq_map]
  exact .branch hn fun arm harm => ha arm harm incoming hi

/-- The sweep over a whole `return`: it freezes its own access, or keeps the candidate before
it. -/
theorem ret {ordinals : List Nat} (h : gr.Fits stands) (hne : ordinals ≠ [])
    (ho : ∀ o ∈ ordinals, stands o p true) : gr.Told (ordinals.map .site ++ [.ret p]) := by
  intro incoming hi
  have hord : ordinalsAll (ordinals.map .site ++ [.ret p]) = ordinals := by
    simp [ordinalsAll_map_site, ordinalsAll, Region.ordinals]
  have hs : (sweepAll gr (ordinals.map .site) incoming).InReturn gr ordinals incoming :=
    h.inReturn_sites ho
  rw [sweepAll_append]
  generalize sweepAll gr (ordinals.map .site) incoming = s at hs
  have hleave :
      ∀ c, (Sweep.leave gr p c).touched = false ∧ (Sweep.leave gr p c).accessed = false := by
    intro c
    unfold Sweep.leave
    split
    · split <;> exact ⟨rfl, rfl⟩
    · exact ⟨rfl, rfl⟩
  rw [sweepAll_singleton, Region.sweep]
  have hown : ∀ c, s.candidate = some c → gr.stmt? c = some p → (gr.access c).inReturn = true := by
    intro c hc hp
    rcases hs.candidate with ⟨hi', -⟩ | ⟨⟨d, -, hd, hr⟩, -⟩
    · obtain ⟨o, hm⟩ := List.exists_mem_of_ne_nil _ hne
      exact absurd hp (h.apart (ho o hm) (hi c (hi' ▸ hc)))
    · rw [hc, Option.some.injEq] at hd
      exact hd ▸ hr
  refine .of_returns ?_ ?_ ?_ ?_ ?_
  · rintro o hm ⟨hacc, hplain⟩
    rw [hord] at hm
    rw [h.ret (ho o hm) hacc] at hplain
    cases hplain
  · simp [Sweep.andThen, hs.accessed, hleave]
  · simpa [Sweep.andThen, hleave, hord] using hs.touched
  · have ht : (s.andThen (Sweep.leave gr p s.candidate)).touched = s.touched := by
      simp [Sweep.andThen, hleave]
    rw [ht]
    change (Sweep.leave gr p s.candidate).candidate = _
    rcases hs.candidate with ⟨hc, ht⟩ | ⟨⟨c, hm, hc, -⟩, ht⟩
    · rw [hc, ht]
      cases incoming with
      | none => rfl
      | some c =>
        obtain ⟨o, hm⟩ := List.exists_mem_of_ne_nil _ hne
        simp [Sweep.leave, h.apart (ho o hm) (hi c rfl), Sweep.still]
    · simp [hc, ht, Sweep.leave, h.stmt (ho c hm)]
  · intro c hc
    simp only [Sweep.andThen, hs.frozen, List.nil_append, Sweep.leave] at hc
    split at hc
    · next d hd =>
      split at hc
      · next hp =>
        cases List.mem_singleton.1 hc
        exact hown c hd hp
      · simp [Sweep.still] at hc
    · simp [Sweep.still] at hc

end Ground.Told

/-- The arms of a branch are in order if the branch is. -/
theorem pairwise_of_mem_arms {arms : List (List Region)} {arm : List Region}
    (hs : (armOrdinals arms).Pairwise (· < ·)) (ha : arm ∈ arms) :
    (ordinalsAll arm).Pairwise (· < ·) := by
  induction arms with
  | nil => simp at ha
  | cons x rest ih =>
    rw [armOrdinals, List.pairwise_append] at hs
    rcases List.mem_cons.1 ha with rfl | ha
    · exact hs.1
    · exact ih hs.2.1 ha

/-- A sweep over the regions of whole statements tells what is the final access. -/
theorem Nested.told {gr : Ground} {stands : Nat → Path → Bool → Prop} (h : gr.Fits stands)
    {rs : List Region} (hn : Nested stands rs) (hs : (ordinalsAll rs).Pairwise (· < ·)) :
    gr.Told rs := by
  induction hn with
  | nil =>
    intro incoming _
    rw [sweepAll]
    exact .nil
  | @site o _ rest ho _ ih => exact .append (a := [.site o]) hs (.site (h.plain ho)) ih
  | @branch p arms rest _ _ iha ihr =>
    have hord : (armOrdinals arms).Pairwise (· < ·) := by
      rw [ordinalsAll, Region.ordinals, List.pairwise_append] at hs
      exact hs.1
    refine .append (a := [.branch p arms]) hs (.branch ?_ fun arm ha => ?_) ihr
    · exact hord.imp Nat.ne_of_lt
    · exact iha arm ha (pairwise_of_mem_arms hord ha)
  | @loop p body rest _ _ ihb ihr =>
    have hord : (ordinalsAll body).Pairwise (· < ·) := by
      rw [ordinalsAll, Region.ordinals, List.pairwise_append] at hs
      exact hs.1
    exact .append (a := [.loop p body]) hs (.loop (ihb hord)) ihr
  | @ret p ordinals rest hne ho _ ih =>
    rw [List.append_cons] at hs ⊢
    exact .append hs (.ret h hne ho) ih

/-! ## The final site of a verdict -/

namespace FlowGraph

variable {exitEdges : Except Fault Bool} {tree : Value} {g : FlowGraph} {b : Binding}
  {repeated : List Nat} {m o : Nat}

/-- The ground of a flow graph tells which sites access the binding outside of a `return`. -/
theorem Laid.ground_plain (h : g.Laid) :
    (g.ground (g.scan b) repeated).Plain o ↔ g.Accesses b o ∧ g.marks.inReturn o = false := by
  refine and_congr_left' h.scan_accesses |>.trans (and_congr_right fun ha => ?_)
  rw [show (g.ground (g.scan b) repeated).access o = (g.scan b).access o from rfl,
    h.scan_inReturn ha]

/-- The regions hold every site. -/
theorem Laid.mem_ordinalsAll (h : g.Laid) {s : Site} (hs : s ∈ g.sites) :
    s.ordinal ∈ ordinalsAll g.region := by
  rw [h.region, List.mem_range]
  exact h.ordinal_lt hs

/-- The sites that access a binding are in the regions. -/
theorem Laid.mem_region (h : g.Laid) (ho : g.Accesses b o) : o ∈ ordinalsAll g.region := by
  obtain ⟨s, hs, rfl, -⟩ := ho
  exact h.mem_ordinalsAll hs

/-- The ground of a flow graph tells the statements of its sites. -/
theorem Laid.ground_stmt (h : g.Laid) {s : Site} (hs : s ∈ g.sites) :
    (g.ground (g.scan b) repeated).stmt? s.ordinal = some s.stmt := by
  simp [ground, getElem?_ordinal h.sites hs]

/-- What a sweep for a binding knows of the sites fits their statements. -/
theorem fits_of_ofTree (h : ofTree exitEdges tree = .ok g) :
    (g.ground (g.scan b) repeated).Fits (Stands g.sites) := by
  have hg := laid_of_ofTree h
  have haccess :
      ∀ s ∈ g.sites, (g.ground (g.scan b) repeated).access s.ordinal = s.access b.name :=
    fun s hs => hg.scan_access hs
  constructor
  · rintro o p ⟨s, hs, rfl, -, hr⟩
    simp [haccess s hs, Site.access, hr]
  · rintro o p ⟨s, hs, rfl, -, hr⟩ hacc
    rw [haccess s hs] at hacc ⊢
    simpa [Site.access, hr] using hacc
  · rintro o p ⟨s, hs, rfl, rfl, -⟩
    exact hg.ground_stmt hs
  · rintro o c p ⟨s, hs, rfl, rfl, hr⟩ hc
    obtain ⟨⟨t, ht, rfl, -⟩, hplain⟩ := hg.ground_plain.1 hc
    rw [(marks_of_sites hg.sites t ht).2] at hplain
    rw [hg.ground_stmt ht, ne_eq, Option.some.injEq]
    intro he
    rw [inReturn_of_stmt h ht hs he, hr] at hplain
    cases hplain

/-- A site is the final access of a binding, where the sites of `repeated` may run again. -/
structure IsFinal (g : FlowGraph) (b : Binding) (repeated : List Nat) (m : Nat) : Prop where
  access : g.Accesses b m
  plain : g.marks.inReturn m = false
  greatest : ∀ o, g.Accesses b o → g.marks.inReturn o = false → o ≤ m
  once : g.marks.inLoop m = false ∧ m ∉ repeated
  last : ∀ o, g.Accesses b o → o ≠ m → ¬ TransGen g.Leads (.site m) (.site o)
  alone : ∀ arms ∈ branchesAll g.region, ∀ o, Apart arms m o →
    ¬ (g.Accesses b o ∧ g.marks.inReturn o = false)
  behind : ∀ o, g.Accesses b o → m < o → ∃ arms ∈ branchesAll g.region, Apart arms m o

/-- The sweep over a whole function tells what is the final access. -/
theorem told_of_ofTree (h : ofTree exitEdges tree = .ok g) :
    (g.ground (g.scan b) repeated).Told g.region :=
  (nested_of_ofTree h).told (fits_of_ofTree h) (laid_of_ofTree h).pairwise_region

/-- The candidate of the whole sweep is the final access of the regions of the function. -/
theorem candidate_eq_some (h : ofTree exitEdges tree = .ok g) :
    (sweepAll (g.ground (g.scan b) repeated) g.region none).candidate = some m ↔
      Final (g.ground (g.scan b) repeated) g.region m := by
  rw [(told_of_ofTree h none (by simp)).candidate m, or_iff_left (by simp)]

/-- The frozen sites of a verdict belong to `return` statements. -/
theorem inReturn_of_frozen (h : ofTree exitEdges tree = .ok g)
    (ho : o ∈ (g.verdict (g.scan b) repeated).frozen) : g.marks.inReturn o = true := by
  have hg := laid_of_ofTree h
  have hacc : g.Accesses b o := (hg.lasts_of_mem_sites (Verdict.mem_sites.2 (.inr ho))).1
  rw [← hg.scan_inReturn hacc]
  exact (told_of_ofTree h none (by simp)).frozen o (hg.mem_lastAmong.1 ho).1

/-- A site is the final one of a verdict if it is the final access. -/
theorem final_eq_some_iff_isFinal (h : ofTree exitEdges tree = .ok g) :
    (g.verdict (g.scan b) repeated).final = some m ↔ g.IsFinal b repeated m := by
  have hg := laid_of_ofTree h
  rw [final_eq_some, hg.mem_lastAmong, Option.mem_toList, candidate_eq_some h]
  constructor
  · rintro ⟨hf, hlast⟩
    obtain ⟨hacc, hplain⟩ := hg.ground_plain.1 hf.plain
    refine ⟨hacc, hplain, ?_, (ground_repeats.1 hf.once).symm, hlast, ?_, ?_⟩
    · exact fun o ho hr => hf.greatest o (hg.mem_region ho) (hg.ground_plain.2 ⟨ho, hr⟩)
    · rintro arms ha o hapart ⟨ho, hr⟩
      exact hf.alone o (hg.mem_region ho) (hg.ground_plain.2 ⟨ho, hr⟩) ⟨arms, ha, hapart⟩
    · exact fun o ho hmo => hf.behind o (hg.mem_region ho) (hg.scan_accesses.2 ho) hmo
  · intro hf
    refine ⟨⟨hg.mem_region hf.access, hg.ground_plain.2 ⟨hf.access, hf.plain⟩,
      ground_repeats.2 hf.once.symm, ?_, ?_, ?_⟩, hf.last⟩
    · intro o _ hp
      obtain ⟨ho, hr⟩ := hg.ground_plain.1 hp
      exact hf.greatest o ho hr
    · rintro o _ hp ⟨arms, ha, hapart⟩
      exact hf.alone arms ha o hapart (hg.ground_plain.1 hp)
    · exact fun o _ hacc hmo => hf.behind o (hg.scan_accesses.1 hacc) hmo

/-- A verdict has a final site exactly if some access is the final one, and then it is that. -/
theorem final_iff (h : ofTree exitEdges tree = .ok g) (b : Binding) (repeated : List Nat) :
    (∀ m, (g.verdict (g.scan b) repeated).final = some m ↔ g.IsFinal b repeated m) ∧
      ((g.verdict (g.scan b) repeated).final = none ↔ ∀ m, ¬ g.IsFinal b repeated m) := by
  refine ⟨fun m => final_eq_some_iff_isFinal h, ?_⟩
  rw [Option.eq_none_iff_forall_ne_some]
  exact forall_congr' fun m => not_congr (final_eq_some_iff_isFinal h)

end FlowGraph

/-- The use in an arm is the final access, since the accesses before it are in the loop and the one
behind it is in the other arm. -/
theorem Sample.final_of_returnsEarly :
    FlowGraph.ofTree (.ok true) returnsEarly = .ok (graph returnsEarly) ∧
      ((graph returnsEarly).verdict ((graph returnsEarly).scan x) []).final = some 5 ∧
      (graph returnsEarly).IsFinal x [] 5 := by
  have h : ((graph returnsEarly).verdict ((graph returnsEarly).scan x) []).final = some 5 := by
    decide +kernel
  exact ⟨ofTree_returnsEarly, h, ((FlowGraph.final_iff ofTree_returnsEarly x []).1 5).1 h⟩

end LastUse
