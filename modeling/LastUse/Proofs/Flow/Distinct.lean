import LastUse.Proofs.Flow.Embedded
import LastUse.Proofs.Flow.Turns
import LastUse.Proofs.Sample

/-!
# Edges are distinct

No edge of a flow graph is drafted twice. Two things carry this through a function body
(`Passage.Distinct`). Every edge ends at a site of the piece that drafts it, or leaves the function
from there, so edges of different pieces differ. And the ways out of a piece are distinct pairs of
vertices and labels: a site from which control jumps has no other way out and begins no edge before
the jump is led on. The one function with an edge twice is the one without sites, where the way
past all sites is drafted beside the way to the exit (`FlowGraph.edges_distinct`).
-/

namespace LastUse

/-! ## Frontiers -/

/-- A frontier that precedes a range of sites has no source in it. -/
theorem Frontier.Precedes.not_within {n k m : Nat} {fr : Frontier} (h : fr.Precedes n) (hm : n ≤ m)
    {v : Vertex} (hv : v ∈ sources fr) : ¬ v.Within m k := by
  rintro ⟨o, rfl, hlo, -⟩
  have := h o hv
  omega

/-- A part of what comes before a site comes before it. -/
theorem Frontier.Precedes.of_sources {n : Nat} {fr fr' : Frontier} (h : fr.Precedes n)
    (hs : ∀ v ∈ sources fr', v ∈ sources fr) : fr'.Precedes n :=
  fun o ho => h o (hs _ ho)

/-- What leaves a head where its condition holds comes before the sites behind it. -/
theorem Head.Laid.precedes_yes {h : Host} {n : Nat} {fr : Frontier} {head : Head}
    (hh : head.Laid h n fr) (l : EdgeLabel) :
    (labelled head.exits.yes l).Precedes (n + head.draft.sites.length) :=
  hh.precedes fun v hv => by simp [mem_sources_labelled.1 hv]

/-- What leaves a head where its condition fails comes before the sites behind it. -/
theorem Head.Laid.precedes_no {h : Host} {n : Nat} {fr : Frontier} {head : Head}
    (hh : head.Laid h n fr) (l : EdgeLabel) :
    (labelled head.exits.no l).Precedes (n + head.draft.sites.length) :=
  hh.precedes fun v hv => by simp [mem_sources_labelled.1 hv]

/-- Distinct ways lead to a vertex along distinct edges. -/
theorem nodup_leadTo {fr : Frontier} (h : fr.Nodup) (v : Vertex) : (leadTo fr v).Nodup := by
  refine h.map fun d d' he => ?_
  obtain ⟨hs, -, hl⟩ := Edge.mk.inj he
  exact Prod.ext hs hl

/-- Frontiers from different vertices are distinct together if each is. -/
theorem nodup_append_of_sources {a b : Frontier} (ha : a.Nodup) (hb : b.Nodup)
    (hd : ∀ v ∈ sources a, v ∉ sources b) : (a ++ b).Nodup := by
  refine List.nodup_append.2 ⟨ha, hb, ?_⟩
  rintro d hda _ hdb rfl
  exact hd d.1 (List.mem_map_of_mem hda) (List.mem_map_of_mem hdb)

/-- Frontiers with different labels are distinct together. -/
theorem nodup_labelled_append {l l' : EdgeLabel} (hl : l ≠ l') (a b : Frontier) :
    (labelled a l ++ labelled b l').Nodup := by
  refine List.nodup_append.2 ⟨nodup_labelled a l, nodup_labelled b l', ?_⟩
  rintro d hda _ hdb rfl
  exact hl ((mem_labelled_iff.1 hda).2.symm.trans (mem_labelled_iff.1 hdb).2)

/-- The jumps of two drafts are those of both. -/
theorem Draft.jumping_append_perm (a b : Draft) :
    (a ++ b).jumping.Perm (a.jumping ++ b.jumping) := by
  rw [List.perm_iff_count]
  intro v
  simp only [jumping, breaks_append, continues_append, gotos_append, sources_append,
    List.map_append, List.count_append]
  omega

/-! ## Distinct edges and ends -/

/-- An edge of the `k` sites from `n` on: it ends at one of them, or it leaves the function from
one. -/
def Edge.Lands (n k : Nat) (e : Edge) : Prop :=
  e.target.Within n k ∨ (e.target = .exit ∧ e.source.Within n k)

namespace Edge.Lands

variable {n n' k k' : Nat} {e : Edge}

/-- An edge that lands among some sites lands among more. -/
theorem mono (h : e.Lands n k) (hn : n' ≤ n) (hk : n + k ≤ n' + k') : e.Lands n' k' :=
  h.imp (·.mono hn hk) fun ⟨ht, hs⟩ => ⟨ht, hs.mono hn hk⟩

/-- Of two ranges of sites one behind the other, an edge belongs to one at most. -/
theorem not_lands (h : e.Lands n' k') (hn : n + k ≤ n') : ¬ e.Lands n k := by
  have hexit : ∀ {n k}, ¬ (Vertex.exit).Within n k := by
    rintro n k ⟨o, ho, -⟩
    cases ho
  rintro (ht | ⟨ht, hs⟩) <;> rcases h with ht' | ⟨ht', hs'⟩
  · exact ht'.not_within hn ht
  · exact hexit (ht' ▸ ht)
  · exact hexit (ht ▸ ht')
  · exact hs'.not_within hn hs

/-- An edge to the exit leaves from the sites among which it lands. -/
theorem source_within (h : e.Lands n k) (he : e.target = .exit) : e.source.Within n k := by
  rcases h with ⟨o, ho, -⟩ | ⟨-, hs⟩
  · cases he.symm.trans ho
  · exact hs

end Edge.Lands

/-- The edges of a passage and its ends are distinct. Edges begin and end where they may, each end
is there once, no edge begins at an end from which control jumps, and no end has an edge to the
exit. -/
structure Passage.Distinct (n : Nat) (fr : Frontier) (r : Passage) : Prop where
  edges : r.draft.edges.Nodup
  lands : ∀ e ∈ r.draft.edges, e.Lands n r.draft.sites.length
  source : ∀ e ∈ r.draft.edges, e.source ∈ sources fr ∨ e.source.Within n r.draft.sites.length
  out : r.out.Nodup
  within : ∀ v ∈ sources r.out, v ∈ sources fr ∨ v.Within n r.draft.sites.length
  stays : ∀ e ∈ r.draft.edges, e.target = .exit → e.source ∉ sources r.out
  jumping : r.draft.jumping.Nodup
  jumps : ∀ v ∈ r.draft.jumping, v.Within n r.draft.sites.length
  halts : ∀ v ∈ r.draft.jumping, v ∉ sources r.out ∧ ∀ e ∈ r.draft.edges, e.source ≠ v

namespace Passage.Distinct

variable {n : Nat} {fr fr' out : Frontier} {a b r : Passage} {d d' : Draft}

/-- A piece without edges and jumps lets all pass. -/
theorem of_no_edges (hd : d.edges = []) (hj : d.jumping = []) (hfr : fr.Nodup) :
    (⟨d, fr⟩ : Passage).Distinct n fr where
  edges := by simp [hd]
  lands := by simp [hd]
  source := by simp [hd]
  out := hfr
  within _ hv := .inl hv
  stays := by simp [hd]
  jumping := by simp [hj]
  jumps := by simp [hj]
  halts := by simp [hj]

/-- A frontier may hold more than what leads into a passage. -/
theorem weaken (h : r.Distinct n fr) (hs : ∀ v ∈ sources fr, v ∈ sources fr') : r.Distinct n fr' :=
  { h with
    source := fun e he => (h.source e he).imp_left (hs _)
    within := fun v hv => (h.within v hv).imp_left (hs _) }

/-- Not all that leaves a passage need be led on, and it may take other labels. -/
theorem sub (h : r.Distinct n fr) (hout : out.Nodup) (hs : ∀ v ∈ sources out, v ∈ sources r.out) :
    (⟨r.draft, out⟩ : Passage).Distinct n fr :=
  { h with
    out := hout
    within := fun v hv => h.within v (hs v hv)
    stays := fun e he ht hv => h.stays e he ht (hs _ hv)
    halts := fun v hv => (h.halts v hv).imp_left fun hn hv => hn (hs v hv) }

/-- The regions of a passage do not matter. -/
theorem congr (h : (⟨d, out⟩ : Passage).Distinct n fr) (hs : d'.sites = d.sites)
    (he : d'.edges = d.edges) (hj : d'.jumping = d.jumping) :
    (⟨d', out⟩ : Passage).Distinct n fr where
  edges := he ▸ h.edges
  lands := hs ▸ he ▸ h.lands
  source := hs ▸ he ▸ h.source
  out := h.out
  within := hs ▸ h.within
  stays := he ▸ h.stays
  jumping := hj ▸ h.jumping
  jumps := hs ▸ hj ▸ h.jumps
  halts := he ▸ hj ▸ h.halts

/-- What leaves a passage comes before the sites behind it. -/
theorem precedes (h : r.Distinct n fr) (hfr : fr.Precedes n) :
    Frontier.Precedes (n + r.draft.sites.length) r.out := by
  intro o ho
  rcases h.within _ ho with ho | ⟨_, ⟨⟩, -, hup⟩
  · exact Nat.lt_of_lt_of_le (hfr o ho) (Nat.le_add_right _ _)
  · exact hup

/-- A passage and the next one, which is entered from the same frontier or from the first one. -/
theorem append (ha : a.Distinct n fr) (hb : b.Distinct (n + a.draft.sites.length) fr')
    (hfr : fr.Precedes n) (hs : ∀ v ∈ sources fr', v ∈ sources fr ∨ v ∈ sources a.out)
    (hout : out.Nodup)
    (ho : ∀ v ∈ sources out, v ∈ sources a.out ∨ v ∈ sources b.out) :
    (⟨a.draft ++ b.draft, out⟩ : Passage).Distinct n fr := by
  have hleft : ∀ {v : Vertex}, v.Within n a.draft.sites.length →
      v.Within n (a.draft ++ b.draft).sites.length := fun hv => hv.mono (Nat.le_refl n) (by simp)
  have hright : ∀ {v : Vertex}, v.Within (n + a.draft.sites.length) b.draft.sites.length →
      v.Within n (a.draft ++ b.draft).sites.length := fun hv => hv.mono (by omega) (by simp; omega)
  -- What is entered or left behind the first passage comes from before it, from it, or from the
  -- second one.
  have horigin : ∀ v, v ∈ sources fr' ∨ v.Within (n + a.draft.sites.length) b.draft.sites.length →
      v ∈ sources fr ∨ v ∈ sources a.out ∨ v.Within (n + a.draft.sites.length)
        b.draft.sites.length := by
    rintro v (hv | hv)
    · exact (hs v hv).imp_right .inl
    · exact .inr (.inr hv)
  have hspare : ∀ v, v.Within n a.draft.sites.length → v ∉ sources a.out →
      ¬ (v ∈ sources fr' ∨ v.Within (n + a.draft.sites.length) b.draft.sites.length) := by
    intro v hv hn hor
    rcases horigin v hor with hor | hor | hor
    · exact hfr.not_within (Nat.le_refl n) hor hv
    · exact hn hor
    · exact hor.not_within (Nat.le_refl _) hv
  have hreach : ∀ v, v ∈ sources fr' ∨ v.Within (n + a.draft.sites.length) b.draft.sites.length →
      v ∈ sources fr ∨ v.Within n (a.draft ++ b.draft).sites.length := by
    intro v hv
    rcases horigin v hv with hv | hv | hv
    · exact .inl hv
    · exact (ha.within _ hv).imp_right hleft
    · exact .inr (hright hv)
  have hahead : ∀ v, v.Within (n + a.draft.sites.length) b.draft.sites.length →
      ¬ (v ∈ sources fr ∨ v.Within n a.draft.sites.length) := by
    rintro v hv (hv' | hv')
    · exact hfr.not_within (Nat.le_add_right _ _) hv' hv
    · exact hv.not_within (Nat.le_refl _) hv'
  constructor
  case edges =>
    refine List.nodup_append.2 ⟨ha.edges, hb.edges, ?_⟩
    rintro e hea _ heb rfl
    exact (hb.lands e heb).not_lands (Nat.le_refl _) (ha.lands e hea)
  case lands =>
    intro e he
    rcases List.mem_append.1 he with he | he
    · exact (ha.lands e he).mono (Nat.le_refl n) (by simp)
    · exact (hb.lands e he).mono (by omega) (by simp; omega)
  case source =>
    intro e he
    rcases List.mem_append.1 he with he | he
    · exact (ha.source e he).imp_right hleft
    · exact hreach _ (hb.source e he)
  case out => exact hout
  case within =>
    intro v hv
    rcases ho v hv with hv | hv
    · exact (ha.within v hv).imp_right hleft
    · exact hreach v (hb.within v hv)
  case stays =>
    intro e he ht hv
    rcases List.mem_append.1 he with he | he <;> rcases ho _ hv with hv | hv
    · exact ha.stays e he ht hv
    · exact hspare _ ((ha.lands e he).source_within ht) (ha.stays e he ht) (hb.within _ hv)
    · exact hahead _ ((hb.lands e he).source_within ht) (ha.within _ hv)
    · exact hb.stays e he ht hv
  case jumping =>
    rw [(Draft.jumping_append_perm _ _).nodup_iff, List.nodup_append]
    refine ⟨ha.jumping, hb.jumping, ?_⟩
    rintro v hva _ hvb rfl
    exact (hb.jumps v hvb).not_within (Nat.le_refl _) (ha.jumps v hva)
  case jumps =>
    intro v hv
    rcases Draft.mem_jumping_append.1 hv with hv | hv
    · exact hleft (ha.jumps v hv)
    · exact hright (hb.jumps v hv)
  case halts =>
    intro v hv
    rcases Draft.mem_jumping_append.1 hv with hv | hv
    · have hfree := hspare v (ha.jumps v hv) (ha.halts v hv).1
      refine ⟨fun hm => ?_, fun e he => ?_⟩
      · exact (ho v hm).elim (ha.halts v hv).1 fun hm => hfree (hb.within v hm)
      · rcases List.mem_append.1 he with he | he
        · exact (ha.halts v hv).2 e he
        · rintro rfl
          exact hfree (hb.source e he)
    · have hfree := hahead v (hb.jumps v hv)
      refine ⟨fun hm => ?_, fun e he => ?_⟩
      · exact (ho v hm).elim (fun hm => hfree (ha.within v hm)) (hb.halts v hv).1
      · rcases List.mem_append.1 he with he | he
        · rintro rfl
          exact hfree (ha.source e he)
        · exact (hb.halts v hv).2 e he

/-- One passage after another. -/
theorem andThen (ha : a.Distinct n fr) (hb : b.Distinct (n + a.draft.sites.length) a.out)
    (hfr : fr.Precedes n) : (⟨a.draft ++ b.draft, b.out⟩ : Passage).Distinct n fr :=
  ha.append hb hfr (fun _ hv => .inr hv) hb.out fun _ hv => .inr hv

/-- Further ends from which control jumped are distinct from the others. -/
theorem nodup_append_jumps (h : r.Distinct n fr) {jumps : Frontier} (hn : jumps.Nodup)
    (hj : ∀ v ∈ sources jumps, v ∈ r.draft.jumping) : (r.out ++ jumps).Nodup :=
  nodup_append_of_sources h.out hn fun v hv hv' => (h.halts v (hj v hv')).1 hv

/-- Some jumps of a passage are led on. -/
theorem release {led : List Vertex} (h : (⟨d, out⟩ : Passage).Distinct n fr)
    (hs : d'.sites = d.sites) (he : d'.edges = d.edges) (hj : d.jumping.Perm (led ++ d'.jumping))
    {out' : Frontier} (hout : out'.Nodup)
    (ho : ∀ v ∈ sources out', v ∈ sources out ∨ v ∈ led) :
    (⟨d', out'⟩ : Passage).Distinct n fr := by
  have hled : ∀ v ∈ led, v ∈ d.jumping := fun v hv => hj.mem_iff.2 (List.mem_append_left _ hv)
  have hkept : ∀ v ∈ d'.jumping, v ∈ d.jumping :=
    fun v hv => hj.mem_iff.2 (List.mem_append_right _ hv)
  obtain ⟨-, hnodup, hapart⟩ := List.nodup_append.1 (hj.nodup_iff.1 h.jumping)
  constructor
  case edges => exact he ▸ h.edges
  case lands => exact hs ▸ he ▸ h.lands
  case source => exact hs ▸ he ▸ h.source
  case out => exact hout
  case within =>
    intro v hv
    rw [show (⟨d', out'⟩ : Passage).draft.sites = d.sites from hs]
    exact (ho v hv).elim (h.within v) fun hv => .inr (h.jumps v (hled v hv))
  case stays =>
    intro e hm ht hv
    rw [show (⟨d', out'⟩ : Passage).draft.edges = d.edges from he] at hm
    exact (ho _ hv).elim (h.stays e hm ht) fun hv => (h.halts _ (hled _ hv)).2 e hm rfl
  case jumping => exact hnodup
  case jumps => exact fun v hv => hs ▸ h.jumps v (hkept v hv)
  case halts =>
    intro v hv
    refine ⟨fun hm => ?_, he ▸ (h.halts v (hkept v hv)).2⟩
    exact (ho v hm).elim (h.halts v (hkept v hv)).1 fun hm => hapart v hm v hv rfl

/-- Further edges from where a passage is left: to its own sites, or to the exit from ends that are
not led on. -/
theorem withEdges {more : List Edge} (h : (⟨d, out⟩ : Passage).Distinct n fr)
    (hs : d'.sites = d.sites) (he : d'.edges = d.edges ++ more) (hj : d'.jumping = d.jumping)
    (hmore : more.Nodup)
    (hnew : ∀ e ∈ more, e ∉ d.edges) (hl : ∀ e ∈ more, e.Lands n d.sites.length)
    (hw : ∀ e ∈ more, e.source ∈ sources out ∧ e.source.Within n d.sites.length) {out' : Frontier}
    (hout : out'.Nodup) (ho : ∀ v ∈ sources out', v ∈ sources out)
    (hexit : ∀ e ∈ more, e.target = .exit → e.source ∉ sources out') :
    (⟨d', out'⟩ : Passage).Distinct n fr := by
  have hmem : ∀ e ∈ d'.edges, e ∈ d.edges ∨ e ∈ more := fun e hm => List.mem_append.1 (he ▸ hm)
  constructor
  case edges =>
    refine he ▸ List.nodup_append.2 ⟨h.edges, hmore, ?_⟩
    rintro e hm _ hm' rfl
    exact hnew e hm' hm
  case lands => exact fun e hm => hs ▸ (hmem e hm).elim (h.lands e) (hl e)
  case source => exact fun e hm => hs ▸ (hmem e hm).elim (h.source e) fun hm => .inr (hw e hm).2
  case out => exact hout
  case within => exact fun v hv => hs ▸ h.within v (ho v hv)
  case stays =>
    intro e hm ht hv
    exact (hmem e hm).elim (fun hm => h.stays e hm ht (ho _ hv)) fun hm => hexit e hm ht hv
  case jumping => exact hj ▸ h.jumping
  case jumps => exact hs ▸ hj ▸ h.jumps
  case halts =>
    intro v hv
    obtain ⟨hnot, hnone⟩ := h.halts v (hj ▸ hv)
    refine ⟨fun hm => hnot (ho v hm), fun e hm => (hmem e hm).elim (hnone e) ?_⟩
    rintro hm rfl
    exact hnot (hw e hm).1

/-- A piece with one site, from which control goes on or jumps. -/
theorem ofSite {s : Site} (hs : d.sites = [s]) (he : d.edges = leadTo fr (.site n))
    (hends : (⟨d, out⟩ : Passage).ends = [.site n]) (hfr : fr.Precedes n) (hn : fr.Nodup) :
    (⟨d, out⟩ : Passage).Distinct n fr := by
  have hwithin : ∀ v ∈ (⟨d, out⟩ : Passage).ends, v.Within n d.sites.length := by
    intro v hv
    rw [hends, List.mem_singleton] at hv
    exact ⟨n, hv, Nat.le_refl n, by simp [hs]⟩
  have hone : (sources out ++ d.jumping).Nodup := by
    rw [show sources out ++ d.jumping = [.site n] from hends]
    exact List.nodup_singleton _
  obtain ⟨hout, hjump, hapart⟩ := List.nodup_append.1 hone
  have hedge : ∀ e ∈ d.edges, e.source ∈ sources fr ∧ e.target = .site n :=
    fun e hm => source_mem_of_leadTo (he ▸ hm)
  constructor
  case edges => exact he ▸ nodup_leadTo hn _
  case lands => exact fun e hm => .inl ⟨n, (hedge e hm).2, Nat.le_refl n, by simp [hs]⟩
  case source => exact fun e hm => .inl (hedge e hm).1
  case out => exact .of_map _ hout
  case within => exact fun v hv => .inr (hwithin v (Passage.mem_ends.2 (.inl hv)))
  case stays =>
    intro e hm ht
    cases ht.symm.trans (hedge e hm).2
  case jumping => exact hjump
  case jumps => exact fun v hv => hwithin v (Passage.mem_ends.2 (.inr hv))
  case halts =>
    intro v hv
    refine ⟨fun hm => hapart v hm v hv rfl, ?_⟩
    rintro e hm rfl
    exact hfr.not_within (Nat.le_refl n) (hedge e hm).1 (hwithin _ (Passage.mem_ends.2 (.inr hv)))

end Passage.Distinct

/-! ## Expressions and heads -/

/-- An expression is passed along distinct edges, whatever distinct edges lead into it. -/
def Flow.Distinct (n : Nat) (fr : Frontier) (f : Flow) : Prop :=
  fr.Precedes n → fr.Nodup → (⟨f.draft, f.exits.out⟩ : Passage).Distinct n fr

namespace Flow.Distinct

variable {h : Host} {n : Nat} {fr : Frontier} {f : Flow}

/-- A fragment is passed along distinct edges, if what is evaluated there has none. -/
theorem atFragment {o : Option Nat} {evaluated : Nat → Draft} (he : ∀ o, (evaluated o).edges = [])
    (hj : ∀ o, (evaluated o).jumping = []) :
    (Flow.atFragment h n o fr evaluated).Distinct n fr := by
  intro hfr hn
  cases o with
  | some o => exact .of_no_edges (he o) (hj o) hn
  | none =>
    have hsite : (⟨Draft.ofSite (h.fragment n) fr, onward n⟩ : Passage).Distinct n fr :=
      .ofSite rfl rfl rfl hfr hn
    exact hsite.andThen (.of_no_edges (he n) (hj n) hsite.out) hfr

/-- One flow after another. -/
theorem andThen {first later : Flow} (hf : first.Distinct n fr)
    (hl : later.Distinct (n + first.draft.sites.length) first.exits.out) :
    ({ later with draft := first.draft ++ later.draft } : Flow).Distinct n fr := by
  intro hfr hn
  have hfirst := hf hfr hn
  exact hfirst.andThen (hl (hfirst.precedes hfr) hfirst.out) hfr

/-- The flow through a site, then through what is evaluated behind it. -/
theorem behindSite {s : Site} (hs : s.ordinal = n) (hf : f.Distinct (n + 1) (onward n)) :
    ({ f with draft := Draft.ofSite s fr ++ f.draft } : Flow).Distinct n fr := by
  intro hfr hn
  have hsite : (⟨Draft.ofSite s fr, onward n⟩ : Passage).Distinct n fr :=
    .ofSite rfl (by rw [← hs]; rfl) rfl hfr hn
  exact hsite.andThen (hf (hsite.precedes hfr) hsite.out) hfr

/-- The two sides of a connective are passed along distinct edges if each of them is. -/
theorem logic {c : Connective} {left right : Flow} (hl : left.Distinct n fr)
    (hr : right.Distinct (n + left.draft.sites.length) (Flow.entry c left.exits)) :
    (⟨left.draft ++ right.draft, none, Flow.combine c left.exits right.exits⟩ : Flow).Distinct
      n fr := by
  intro hfr hn
  have hleft := hl hfr hn
  have hentry : ∀ v ∈ sources (Flow.entry c left.exits), v ∈ sources left.exits.out := by
    intro v hv
    cases c <;> simp only [Flow.entry, mem_sources_labelled] at hv <;> simp [hv]
  have hnodup : (Flow.entry c left.exits).Nodup := by
    cases c <;> exact nodup_labelled _ _
  have hright := hr ((hleft.precedes hfr).of_sources hentry) hnodup
  refine hleft.append hright hfr (fun v hv => .inr (hentry v hv)) ?_ fun v hv => ?_
  · cases c <;> exact nodup_labelled _ _
  · cases c <;> simp [Flow.combine] at hv ⊢ <;> grind

end Flow.Distinct

/-- Every expression is passed along distinct edges. -/
theorem Expr.distinct (h : Host) : Expr.FlowInvariant h (fun _ n _ fr f => f.Distinct n fr)
    (fun _ n _ fr f => f.Distinct n fr) (fun _ _ n fr f => f.Distinct n fr) where
  plain _ := .atFragment (fun _ => rfl) fun _ => rfl
  finish _ _ _ _ hq := hq.andThen (.atFragment (fun _ => rfl) fun _ => rfl)
  logic hl hr := hl.logic hr
  nil _ hn := .of_no_edges rfl rfl hn
  cons hf hl := hf.andThen hl
  nested _ hp := hp
  leaf _ hp := hp.behindSite rfl

namespace Passage.Distinct

variable {sc : Scope} {h : Host} {e : Expr} {n : Nat} {fr : Frontier} {head : Head} {r : Passage}

/-- The head of a statement that evaluates an expression is passed along distinct edges. -/
theorem evaluating (H : Stmt.evaluatingHead h e n fr = .ok head) (hfr : fr.Precedes n)
    (hn : fr.Nodup) : (⟨head.draft, head.exits.out⟩ : Passage).Distinct n fr := by
  obtain ⟨f, hf, H⟩ := ok_of_bind H
  cases H
  exact ((Expr.distinct h).flow hf).behindSite rfl hfr hn

/-- A head that evaluates nothing is passed along distinct edges. -/
theorem bare (hfr : fr.Precedes n) (hn : fr.Nodup) :
    (⟨(Stmt.bareHead h n fr).draft, onward n⟩ : Passage).Distinct n fr :=
  .ofSite rfl rfl rfl hfr hn

/-- A head that may evaluate nothing is passed along distinct edges. -/
theorem optional (H : Stmt.optionalHead h e n fr = .ok head) (hfr : fr.Precedes n)
    (hn : fr.Nodup) : (⟨head.draft, head.exits.out⟩ : Passage).Distinct n fr := by
  unfold Stmt.optionalHead at H
  split at H
  · cases H
    exact bare hfr hn
  · exact evaluating H hfr hn

/-- The head of a loop is passed along distinct edges. -/
theorem loopHead (H : Stmt.loopHead h e n fr = .ok head) (hfr : fr.Precedes n) (hn : fr.Nodup) :
    (⟨head.draft, head.exits.out⟩ : Passage).Distinct n fr := by
  unfold Stmt.loopHead at H
  split at H
  · cases H
    exact (bare hfr hn).sub (nodup_labelled _ _) fun v hv => by
      simpa [Exits.out, Stmt.bareHead] using hv
  · exact evaluating H hfr hn

/-- The start and the step of a loop are passed along distinct edges. -/
theorem side (H : Stmt.Side h e n fr r) (hfr : fr.Precedes n) (hn : fr.Nodup) :
    r.Distinct n fr := by
  cases H with
  | absent => exact .of_no_edges rfl rfl hn
  | site _ hf => exact ((Expr.distinct h).flow hf).behindSite rfl hfr hn

end Passage.Distinct

/-- All edges to the first site of a head lead into it. -/
theorem Stmt.Headed.source_of_target {h : Host} {e : Expr} {n : Nat} {fr : Frontier} {d : Draft}
    (H : Headed h e n fr d) {x : Edge} (hx : x ∈ d.edges) (ht : x.target = .site n) :
    x.source ∈ sources fr := by
  cases H with
  | bare => exact (source_mem_of_leadTo hx).1
  | flow hf =>
    rcases List.mem_append.1 hx with hx | hx
    · exact (source_mem_of_leadTo hx).1
    · rcases ((Expr.inside h).flow hf).edges.target x hx with hexit | ⟨o, ho, hlo, -⟩
      · cases ht.symm.trans hexit
      · cases ht.symm.trans ho
        omega

/-! ## Statements -/

/-- What leaves a statement entered it as it is, or comes from its sites. -/
theorem Passage.Entered.mem_out {n : Nat} {fr : Frontier} {r : Passage} (h : r.Entered n fr)
    {d : Vertex × EdgeLabel} (hd : d ∈ r.out) : d ∈ fr ∨ d.1.Within n r.draft.sites.length := by
  by_cases hs : r.draft.sites = []
  · exact .inl ((h.passed hs).2 ▸ hd)
  · obtain ⟨-, -, -, hout⟩ := h.led hs
    exact .inr (hout _ (List.mem_map_of_mem hd))

/-- The arms of a switch have distinct edges, and no edge that leaves them is that past all
arms. -/
structure Stmt.Arms.Distinct (n : Nat) (subject fallthrough : Frontier) (a : Arms) : Prop where
  passage : (⟨a.draft, a.out⟩ : Passage).Distinct n (subject ++ fallthrough)
  out : ∀ d ∈ a.out, d ∈ fallthrough ∨ d.1.Within n a.draft.sites.length ∨ d.2 ≠ .switchExit

namespace Passage.Distinct

variable {sc : Scope} {h : Host} {e : Expr} {p : Path} {n : Nat} {fr : Frontier} {head : Head}
  {yes no body step : Passage} {arms : Stmt.Arms}

/-- A branch behind a head. An edge that leaves both arms would have two labels. -/
theorem ifElse (hh : head.Laid h n fr)
    (hd : (⟨head.draft, head.exits.out⟩ : Passage).Distinct n fr) (hfr : fr.Precedes n)
    (hy : yes.Distinct (n + head.draft.sites.length) (labelled head.exits.yes .posNext))
    (hye : yes.Entered (n + head.draft.sites.length) (labelled head.exits.yes .posNext))
    (hn : no.Distinct (n + head.draft.sites.length + yes.draft.sites.length)
      (labelled head.exits.no .negNext))
    (hne : no.Entered (n + head.draft.sites.length + yes.draft.sites.length)
      (labelled head.exits.no .negNext)) :
    (⟨head.draft ++ (yes.draft ++ no.draft).asBranch p [yes.draft.region, no.draft.region],
      yes.out ++ no.out⟩ : Passage).Distinct n fr := by
  have hentry :
      ∀ v ∈ sources (labelled head.exits.yes .posNext ++ labelled head.exits.no .negNext),
      v ∈ sources head.exits.out := by simp
  have hpre := hh.precedes hentry
  have hout : (yes.out ++ no.out).Nodup := by
    refine List.nodup_append.2 ⟨hy.out, hn.out, ?_⟩
    rintro d hdy _ hdn rfl
    rcases hye.mem_out hdy with hdy | hdy <;> rcases hne.mem_out hdn with hdn | hdn
    · have hlabel := (mem_labelled_iff.1 hdy).2.symm.trans (mem_labelled_iff.1 hdn).2
      cases hlabel
    · exact hpre.not_within (Nat.le_add_right _ _)
        (List.mem_map_of_mem (List.mem_append_left _ hdy)) hdn
    · exact hpre.not_within (Nat.le_refl _) (List.mem_map_of_mem (List.mem_append_right _ hdn)) hdy
    · exact hdn.not_within (Nat.le_refl _) hdy
  have harms := (hy.weaken fun v hv => by simp [mem_sources_labelled.1 hv]).append hn hpre
    (fun v hv => .inl (by simp [mem_sources_labelled.1 hv])) hout fun v hv => by simpa using hv
  have hbranch : (⟨(yes.draft ++ no.draft).asBranch p [yes.draft.region, no.draft.region],
      yes.out ++ no.out⟩ : Passage).Distinct (n + head.draft.sites.length) _ :=
    harms.congr rfl rfl rfl
  exact hd.append hbranch hfr (fun v hv => .inr (hentry v hv)) hout fun v hv => .inr hv

/-- The body of a loop with what comes to the part behind it. -/
theorem bodyEnd (hb : body.Distinct n fr) :
    (⟨body.draft.withoutContinues, Stmt.bodyEnd body⟩ : Passage).Distinct n fr := by
  have hperm : body.draft.jumping.Perm
      (sources body.draft.continues ++ body.draft.withoutContinues.jumping) := by
    simp only [Draft.jumping, Draft.withoutContinues, sources_nil, List.append_nil,
      ← List.append_assoc]
    exact List.perm_append_comm.append_right _
  have hjump : ∀ v ∈ sources (labelled body.draft.continues .jumpNext), v ∈ body.draft.jumping :=
    fun v hv => hperm.mem_iff.2 (List.mem_append_left _ (mem_sources_labelled.1 hv))
  exact hb.release (by rfl) (by rfl) hperm (hb.nodup_append_jumps (nodup_labelled _ _) hjump)
    fun v hv => by simpa [Stmt.bodyEnd] using hv

/-- A loop is closed: some ends lead back to its first site, others leave it, and so do its
breaks. -/
theorem loop {d d' : Draft} {out back leave breaks : Frontier}
    (hd : (⟨d, out⟩ : Passage).Distinct n fr) (hs : d'.sites = d.sites)
    (he : d'.edges = d.edges ++ leadTo (labelled back .loopControl) (.site n))
    (hj : d.jumping.Perm (sources breaks ++ d'.jumping))
    (hback : ∀ v ∈ sources back, v ∈ sources out ∧ v.Within n d.sites.length)
    (hfirst : ∀ x ∈ d.edges, x.target = .site n → x.source ∉ sources back)
    (hleave : ∀ v ∈ sources leave, v ∈ sources out) :
    (⟨d', labelled leave .negNext ++ breaks⟩ : Passage).Distinct n fr := by
  have hmore : ∀ x ∈ leadTo (labelled back .loopControl) (.site n),
      x.source ∈ sources back ∧ x.target = .site n :=
    fun x hx => (source_mem_of_leadTo hx).imp_left mem_sources_labelled.1
  have hround :
      (⟨d ++ .ofEdges (leadTo (labelled back .loopControl) (.site n)), labelled leave .negNext⟩ :
      Passage).Distinct n fr := by
    refine hd.withEdges (by simp [Draft.ofEdges]) rfl (by simp [Draft.jumping, Draft.ofEdges])
      (nodup_leadTo (nodup_labelled _ _) _) (fun x hx hm => ?_) (fun x hx => ?_)
      (fun x hx => hback _ (hmore x hx).1) (nodup_labelled _ _)
      (fun v hv => hleave v (mem_sources_labelled.1 hv)) fun x hx ht => ?_
    · exact hfirst x hm (hmore x hx).2 (hmore x hx).1
    · obtain ⟨o, -, hlo, hup⟩ := (hback _ (hmore x hx).1).2
      exact .inl ⟨n, (hmore x hx).2, Nat.le_refl n, by omega⟩
    · cases ht.symm.trans (hmore x hx).2
  have hjump : ∀ v ∈ sources breaks, v ∈ d.jumping :=
    fun v hv => hj.mem_iff.2 (List.mem_append_left _ hv)
  have hbreaks : breaks.Nodup := .of_map _ (List.nodup_append.1 (hj.nodup_iff.1 hd.jumping)).1
  have hsame :
      (d ++ .ofEdges (leadTo (labelled back .loopControl) (.site n))).jumping = d.jumping := by
    simp [Draft.jumping, Draft.ofEdges]
  refine hround.release (by simp [hs, Draft.ofEdges]) (by simp [he, Draft.ofEdges]) (hsame ▸ hj)
    (hround.nodup_append_jumps hbreaks fun v hv => hsame ▸ hjump v hv) fun v hv => by
      simpa using hv

/-- A loop that is tested first. -/
theorem closeLoop {label : String} (H : Stmt.Headed (Stmt.headerHost p label) e n fr head.draft)
    (hh : head.Laid (Stmt.headerHost p label) n fr)
    (hd : (⟨head.draft, head.exits.out⟩ : Passage).Distinct n fr) (hfr : fr.Precedes n)
    (hb : body.Distinct (n + head.draft.sites.length) (labelled head.exits.yes .posNext))
    (hs : step.Distinct (n + head.draft.sites.length + body.draft.sites.length)
      (Stmt.bodyEnd body))
    (hj : step.draft.breaks = [] ∧ step.draft.continues = [] ∧ step.draft.gotos = []) :
    (Stmt.closeLoop p n head body step).Distinct n fr := by
  have hentry : ∀ v ∈ sources (labelled head.exits.yes .posNext), v ∈ sources head.exits.out :=
    fun v hv => by simp [mem_sources_labelled.1 hv]
  have hinner := hb.bodyEnd.andThen hs (hh.precedes_yes _)
  have hleft : ∀ v ∈ sources (labelled (head.exits.out ++ step.out) .nextLine),
      v ∈ sources head.exits.out ∨ v ∈ sources step.out :=
        fun v hv => by simpa using mem_sources_labelled.1 hv
  have hround := hd.append hinner hfr (fun v hv => .inr (hentry v hv)) (nodup_labelled _ _) hleft
  have hsites : (Stmt.closeLoop p n head body step).draft.sites
      = (head.draft ++ (body.draft.withoutContinues ++ step.draft)).sites := by
    simp [Stmt.closeLoop, Draft.asLoop, Draft.withoutBreaks, Draft.withoutContinues, Draft.ofEdges]
  have hedges : (Stmt.closeLoop p n head body step).draft.edges
      = (head.draft ++ (body.draft.withoutContinues ++ step.draft)).edges
        ++ leadTo (labelled step.out .loopControl) (.site n) := by
    simp [Stmt.closeLoop, Draft.asLoop, Draft.withoutBreaks, Draft.withoutContinues, Draft.ofEdges]
  have hjumps : (head.draft ++ (body.draft.withoutContinues ++ step.draft)).jumping.Perm
      (sources body.draft.breaks ++ (Stmt.closeLoop p n head body step).draft.jumping) := by
    simp [Stmt.closeLoop, Draft.asLoop, Draft.withoutBreaks, Draft.withoutContinues, Draft.ofEdges,
      Draft.jumping, hh.hosted.breaks, hh.hosted.continues, hh.hosted.gotos, hj]
  have hback : ∀ v ∈ sources step.out, v.Within n
      (head.draft ++ (body.draft.withoutContinues ++ step.draft)).sites.length := by
    intro v hv
    rcases hinner.within v hv with hv | hv
    · exact (hh.out_within v (hentry v hv)).mono (Nat.le_refl n) (by simp)
    · exact hv.mono (by omega) (by simp; omega)
  refine hround.loop hsites hedges hjumps (fun v hv => ⟨by simp [hv], hback v hv⟩)
    (fun x hx ht hv => ?_) fun v hv => by simp [hv]
  rcases List.mem_append.1 hx with hx | hx
  · exact hfr.not_within (Nat.le_refl n) (H.source_of_target hx ht) (hback _ hv)
  · -- Behind the head no edge ends at its first site.
    have hpos := List.length_pos_iff.2 H.sites_ne_nil
    rcases hinner.lands x hx with ⟨o, ho, hlo, -⟩ | ⟨hexit, -⟩
    · cases ht.symm.trans ho
      omega
    · cases ht.symm.trans hexit

/-- A loop that is tested behind its body. -/
theorem closeDoWhile {label : String} (hb : body.Distinct n fr) (hfr : fr.Precedes n)
    (H : Stmt.Headed (Stmt.headerHost p label) e (n + body.draft.sites.length)
      (Stmt.bodyEnd body) head.draft)
    (hh : head.Laid (Stmt.headerHost p label) (n + body.draft.sites.length) (Stmt.bodyEnd body))
    (hd : (⟨head.draft, head.exits.out⟩ : Passage).Distinct (n + body.draft.sites.length)
      (Stmt.bodyEnd body)) : (Stmt.closeDoWhile p n body head).Distinct n fr := by
  have hround := hb.bodyEnd.andThen hd hfr
  have hsites : (Stmt.closeDoWhile p n body head).draft.sites
      = (body.draft.withoutContinues ++ head.draft).sites := by
    simp [Stmt.closeDoWhile, Draft.asLoop, Draft.withoutBreaks, Draft.withoutContinues,
      Draft.ofEdges]
  have hedges : (Stmt.closeDoWhile p n body head).draft.edges
      = (body.draft.withoutContinues ++ head.draft).edges
        ++ leadTo (labelled head.exits.yes .loopControl) (.site n) := by
    simp [Stmt.closeDoWhile, Draft.asLoop, Draft.withoutBreaks, Draft.withoutContinues,
      Draft.ofEdges]
  have hjumps : (body.draft.withoutContinues ++ head.draft).jumping.Perm
      (sources body.draft.breaks ++ (Stmt.closeDoWhile p n body head).draft.jumping) := by
    simp [Stmt.closeDoWhile, Draft.asLoop, Draft.withoutBreaks, Draft.withoutContinues,
      Draft.ofEdges, Draft.jumping, hh.hosted.breaks, hh.hosted.continues, hh.hosted.gotos]
  have hback : ∀ v ∈ sources head.exits.yes, v.Within (n + body.draft.sites.length)
      head.draft.sites.length :=
    fun v hv => hh.out_within v (by simp [hv])
  refine hround.loop hsites hedges hjumps (fun v hv => ⟨by simp [hv], ?_⟩) (fun x hx ht hv => ?_)
    fun v hv => by simp [hv]
  · exact (hback v hv).mono (by omega) (by simp [Draft.withoutContinues]; omega)
  rcases List.mem_append.1 hx with hx | hx
  · rcases hb.source x hx with hs | hs
    · exact hfr.not_within (Nat.le_add_right _ _) hs (hback _ hv)
    · exact (hback _ hv).not_within (Nat.le_refl _) hs
  · -- An edge of the head ends at the first site of the loop only if the body has no sites.
    rcases hd.lands x hx with ⟨o, ho, hlo, -⟩ | ⟨hexit, -⟩
    · cases ht.symm.trans ho
      have hfirst : x.target = .site (n + body.draft.sites.length) := by
        rw [ht]
        congr 1
        omega
      exact (hb.bodyEnd.precedes hfr).not_within (Nat.le_refl _)
        (H.source_of_target hx hfirst) (hback _ hv)
    · cases ht.symm.trans hexit

/-- A switch, from its head and its arms. -/
theorem closeSwitch (hh : head.Laid h n fr)
    (hd : (⟨head.draft, head.exits.out⟩ : Passage).Distinct n fr)
    (hfr : fr.Precedes n) (ha : arms.Distinct (n + head.draft.sites.length) head.exits.out []) :
    (Stmt.closeSwitch p head arms).Distinct n fr := by
  have hperm :
      arms.draft.jumping.Perm (sources arms.draft.breaks ++ arms.draft.withoutBreaks.jumping) := by
    simp [Draft.jumping, Draft.withoutBreaks]
  have hjump : ∀ v ∈ sources arms.draft.breaks, v ∈ arms.draft.jumping :=
    fun v hv => hperm.mem_iff.2 (List.mem_append_left _ hv)
  have hbreaks : arms.draft.breaks.Nodup :=
    .of_map _ (List.nodup_append.1 (hperm.nodup_iff.1 ha.passage.jumping)).1
  have harms : (⟨arms.draft.withoutBreaks, arms.out ++ arms.draft.breaks⟩ : Passage).Distinct
      (n + head.draft.sites.length) (head.exits.out ++ []) :=
    ha.passage.release (by rfl) (by rfl) hperm (ha.passage.nodup_append_jumps hbreaks hjump)
      fun v hv => by simpa using hv
  -- The edge past all arms has a label of its own, and does not come from the arms.
  have hskip : ∀ d ∈ labelled head.exits.out .switchExit, d ∉ arms.out ++ arms.draft.breaks := by
    intro d hs hm
    obtain ⟨hsource, hlabel⟩ := mem_labelled_iff.1 hs
    have hhead := hh.out_within _ hsource
    rcases List.mem_append.1 hm with hm | hm
    · rcases ha.out d hm with hm | hm | hm
      · exact List.not_mem_nil hm
      · exact hm.not_within (Nat.le_refl _) hhead
      · exact hm hlabel
    · exact (ha.passage.jumps _ (hjump _ (List.mem_map_of_mem hm))).not_within
        (Nat.le_refl _) hhead
  have hout : (arms.out ++ arms.draft.breaks
      ++ if arms.hasDefault then [] else labelled head.exits.out .switchExit).Nodup := by
    refine List.nodup_append.2 ⟨harms.out, ?_, ?_⟩
    · split
      · exact List.nodup_nil
      · exact nodup_labelled _ _
    · rintro d hm _ hs rfl
      split at hs
      · exact List.not_mem_nil hs
      · exact hskip d hs hm
  have hbranch (regions : List (List Region)) : (⟨(arms.draft.asBranch p regions).withoutBreaks,
      arms.out ++ arms.draft.breaks⟩ : Passage).Distinct (n + head.draft.sites.length)
        (head.exits.out ++ []) :=
    harms.congr rfl rfl rfl
  refine hd.append (hbranch _) hfr (fun v hv => .inr (by simpa using hv)) hout fun v hv => ?_
  rw [sources_append, List.mem_append] at hv
  refine hv.elim .inr fun hv => ?_
  split at hv
  · simp at hv
  · exact .inl (mem_sources_labelled.1 hv)

/-- A `return` and the edges from it to the exit. -/
theorem closeReturn {exits : Bool} (hh : head.Laid h n fr)
    (hd : (⟨head.draft, head.exits.out⟩ : Passage).Distinct n fr) :
    (Stmt.closeReturn p exits head).Distinct n fr := by
  have hleave : ∀ x ∈ (if exits then leadTo (labelled head.exits.out .returnExit) .exit else []),
      x.source ∈ sources head.exits.out ∧ x.target = .exit := by
    intro x hx
    split at hx
    · exact (source_mem_of_leadTo hx).imp_left mem_sources_labelled.1
    · simp at hx
  refine hd.withEdges (by simp) (by rfl) (by simp [Draft.jumping]) ?_
    (fun x hx hm => ?_) (fun x hx => ?_) (fun x hx => ?_) List.nodup_nil (by simp) fun _ _ _ => by
      simp
  · split
    · exact nodup_leadTo (nodup_labelled _ _) _
    · exact List.nodup_nil
  · exact hd.stays x hm (hleave x hx).2 (hleave x hx).1
  · exact .inr ⟨(hleave x hx).2, hh.out_within _ (hleave x hx).1⟩
  · exact ⟨(hleave x hx).1, hh.out_within _ (hleave x hx).1⟩

end Passage.Distinct

namespace Stmt

variable {n : Nat} {subject fallthrough : Frontier}

/-- The next case of a switch and the later ones. -/
theorem Arms.Distinct.cons {first : Passage} {isDefault : Bool} {later : Arms}
    (hs : subject.Precedes n) (ht : fallthrough.Precedes n)
    (hf : first.Distinct n (labelled subject .switchCase ++ labelled fallthrough .nextLine))
    (he : first.Entered n (labelled subject .switchCase ++ labelled fallthrough .nextLine))
    (hl : later.Distinct (n + first.draft.sites.length) subject first.out) :
    (Arms.cons first isDefault later).Distinct n subject fallthrough := by
  have hfr : Frontier.Precedes n (subject ++ fallthrough) := by
    intro o ho
    rw [sources_append, List.mem_append] at ho
    exact ho.elim (hs o) (ht o)
  constructor
  case passage =>
    refine (hf.weaken fun v hv => ?_).append hl.passage hfr (fun v hv => ?_)
      hl.passage.out fun v hv => .inr hv
    · simpa using hv
    · simp only [sources_append, List.mem_append] at hv ⊢
      exact hv.imp_left .inl
  case out =>
    intro d hd
    have hlen : (Arms.cons first isDefault later).draft.sites.length
        = first.draft.sites.length + later.draft.sites.length := by simp [Arms.cons]
    rw [hlen]
    rcases hl.out d hd with hd | hd | hd
    · rcases he.mem_out hd with hd | hd
      · rcases List.mem_append.1 hd with hd | hd <;> rw [(mem_labelled_iff.1 hd).2] <;> simp
      · exact .inr (.inl (hd.mono (Nat.le_refl n) (by omega)))
    · exact .inr (.inl (hd.mono (by omega) (by omega)))
    · exact .inr (.inr hd)

/-- A statement is passed along distinct edges, whatever distinct edges lead into it. -/
theorem distinct : FlowInvariant
    (fun sc s c fr r => Drawn sc s c fr r ∧ (fr.Precedes c.next → fr.Nodup → r.Distinct c.next fr))
    (fun sc ss c fr r => DrawnAll sc ss c fr r ∧
      (fr.Precedes c.next → fr.Nodup → r.Distinct c.next fr))
    (fun sc ss c subject fallthrough a => DrawnArms sc ss c subject fallthrough a ∧
      (subject.Precedes c.next → fallthrough.Precedes c.next → fallthrough.Nodup →
        a.Distinct c.next subject fallthrough)) where
  absent := ⟨drawn.absent, fun _ hn => .of_no_edges rfl rfl hn⟩
  block hr := ⟨drawn.block hr.1, hr.2⟩
  exprStmt hh := ⟨drawn.exprStmt hh, .optional hh⟩
  decl hh := ⟨drawn.decl hh, .optional hh⟩
  ifElse hh hy hn := by
    refine ⟨drawn.ifElse hh hy.1 hn.1, fun hfr hnodup => ?_⟩
    have hl := Head.Laid.evaluating hh
    have hyes := hy.2 (hl.precedes_yes _) (nodup_labelled _ _)
    have hno := hn.2 ((hl.precedes_no _).mono (Nat.le_add_right _ _)) (nodup_labelled _ _)
    exact .ifElse hl (.evaluating hh hfr hnodup) hfr hyes hy.1.entered hno hn.1.entered
  whileLoop hh hb := by
    refine ⟨drawn.whileLoop hh hb.1, fun hfr hnodup => ?_⟩
    have hl := Head.Laid.loop hh
    have hbody := hb.2 (hl.precedes_yes _) (nodup_labelled _ _)
    exact .closeLoop (headed_of_loop hh) hl (.loopHead hh hfr hnodup) hfr hbody
      (.of_no_edges rfl rfl hbody.bodyEnd.out) ⟨rfl, rfl, rfl⟩
  forLoop {sc _ _ _ _ _ _ c d fr _ first start _ _ _} hf hst hd hh hb hs := by
    refine ⟨drawn.forLoop hf.1 hst hd hh hb.1 hs, fun hfr hnodup => ?_⟩
    have hn : d.next = c.next + (first.draft ++ start.draft).sites.length :=
      hd ▸ Cursor.next_after_after
    have hfirst := hf.2 hfr hnodup
    have hstart : (⟨first.draft ++ start.draft, start.out⟩ : Passage).Distinct c.next fr :=
      hfirst.andThen (.side (side_of_init hst) (hfirst.precedes hfr) hfirst.out) hfr
    have hpre : start.out.Precedes d.next := hn ▸ hstart.precedes hfr
    have hl := Head.Laid.loop hh
    have hbody := hb.2 (hl.precedes_yes _) (nodup_labelled _ _)
    have hstep := Passage.Evaluates.step hs
    have hloop :=
      Passage.Distinct.closeLoop (headed_of_loop hh) hl (.loopHead hh hpre hstart.out) hpre hbody
      (.side (side_of_step hs) (hbody.bodyEnd.precedes (hl.precedes_yes _)) hbody.bodyEnd.out)
      ⟨hstep.hosted.breaks, hstep.hosted.continues, hstep.hosted.gotos⟩
    exact hstart.andThen (hn ▸ hloop) hfr
  foreach hh hb := by
    refine ⟨drawn.foreach hh hb.1, fun hfr hnodup => ?_⟩
    have H := headed_of_evaluating hh
    have hl := Head.Laid.evaluating hh
    have hd := Passage.Distinct.evaluating hh hfr hnodup
    have hbody := hb.2 (hl.precedes fun v hv => mem_sources_labelled.1 hv) (nodup_labelled _ _)
    exact .closeLoop H (hl.exits fun _ hv => hv) hd hfr hbody
      (.of_no_edges rfl rfl hbody.bodyEnd.out) ⟨rfl, rfl, rfl⟩
  doWhile hb hh := by
    refine ⟨drawn.doWhile hb.1 hh, fun hfr hnodup => ?_⟩
    have hbody := hb.2 hfr hnodup
    exact .closeDoWhile hbody hfr (headed_of_loop hh) (.loop hh)
      (.loopHead hh (hbody.bodyEnd.precedes hfr) hbody.bodyEnd.out)
  switch hh ha := by
    refine ⟨drawn.switch hh ha.1, fun hfr hnodup => ?_⟩
    have hl := Head.Laid.evaluating hh
    exact .closeSwitch hl (.evaluating hh hfr hnodup) hfr
      (ha.2 (hl.precedes fun _ hv => hv) (fun o ho => by simp at ho) List.nodup_nil)
  labeled {sc p label text _ c fr _} hl hb := by
    refine ⟨drawn.labeled hl hb.1, fun hfr hnodup => ?_⟩
    have hsite :
        (⟨labelDraft sc p label text c.next fr, onward c.next⟩ : Passage).Distinct c.next fr :=
      .ofSite rfl rfl rfl hfr hnodup
    exact hsite.andThen (hb.2 (hsite.precedes hfr) hsite.out) hfr
  goto := ⟨drawn.goto, .ofSite rfl rfl rfl⟩
  ret hh he :=
    ⟨drawn.ret hh he, fun hfr hnodup => .closeReturn (.optional hh) (.optional hh hfr hnodup)⟩
  brk hb := ⟨drawn.brk hb, .ofSite rfl rfl rfl⟩
  cont hc := ⟨drawn.cont hc, .ofSite rfl rfl rfl⟩
  nil := ⟨drawn.nil, fun _ hn => .of_no_edges rfl rfl hn⟩
  cons hf hl := by
    refine ⟨drawn.cons hf.1 hl.1, fun hfr hnodup => ?_⟩
    have hfirst := hf.2 hfr hnodup
    exact hfirst.andThen (hl.2 (hfirst.precedes hfr) hfirst.out) hfr
  noArms := ⟨drawn.noArms, fun _ _ hn => ⟨(Passage.Distinct.of_no_edges rfl rfl hn).weaken
    fun v hv => by simp [hv], fun _ hd => .inl hd⟩⟩
  arm {_ _ _ _ _ c subject fallthrough first _} hf hl := by
    refine ⟨drawn.arm hf.1 hl.1, fun hs ht _ => ?_⟩
    have hentry :
        Frontier.Precedes c.next (labelled subject .switchCase ++
          labelled fallthrough .nextLine) := by
      intro o ho
      simp only [sources_append, List.mem_append, mem_sources_labelled] at ho
      exact ho.elim (hs o) (ht o)
    have hfirst := hf.2 hentry (nodup_labelled_append (by simp) _ _)
    exact .cons hs ht hfirst (hf.1 _ _ _ entered).2
      (hl.2 (hs.mono (Nat.le_add_right _ _)) (hfirst.precedes hentry) hfirst.out)

end Stmt

/-! ## Functions -/

namespace FlowGraph

variable {exitEdges : Except Fault Bool} {g : FlowGraph} {body : Stmt} {whole : Passage}

/-- There is one jump for each `goto`. -/
theorem map_source_of_jumpsOf {labels : List (String × Nat)} {gotos : List (Nat × String)}
    {jumps : List Jump} (h : jumpsOf labels gotos = .ok jumps) :
    jumps.map (·.source) = gotos.map (·.1) := by
  induction gotos generalizing jumps with
  | nil =>
    cases h
    rfl
  | cons first rest ih =>
    obtain ⟨source, label⟩ := first
    unfold jumpsOf at h
    split at h
    · cases h
    · obtain ⟨later, hlater, h⟩ := ok_of_bind h
      cases h
      simp [ih hlater]

namespace Drafted

/-- The flow through a whole function has distinct edges. -/
theorem distinct (hg : g.Drafted exitEdges body whole) : whole.Distinct 0 [(.start, .next)] := by
  have hstart : Frontier.Precedes 0 [(.start, .next)] := by
    intro o ho
    simp [sources] at ho
  exact (Stmt.distinct.flow hg.flow).2 hstart (List.nodup_singleton _)

/-- The flow through a whole function is entered at its first site. -/
theorem entered (hg : g.Drafted exitEdges body whole) : whole.Entered 0 [(.start, .next)] :=
  (Stmt.entered.flow hg.flow).2

/-- A flow graph has sites if the flow that it is made of has. -/
theorem sites_eq_nil_iff (hg : g.Drafted exitEdges body whole) :
    g.sites = [] ↔ whole.draft.sites = [] := by
  simp [hg.sites, filledSites]

/-- A jump of a flow graph is one of the flow that it is made of. -/
theorem source_of_jump (hg : g.Drafted exitEdges body whole) {j : Jump} (hj : j ∈ g.jumps) :
    .site j.source ∈ whole.draft.jumping :=
  List.mem_append_right _ (List.mem_map.2 ⟨_, (mem_of_jumpsOf hg.jumps hj).1, rfl⟩)

/-- Jumps begin at different sites. -/
theorem nodup_jumps (hg : g.Drafted exitEdges body whole) : (g.jumps.map Jump.edge).Nodup := by
  have hgotos : (whole.draft.gotos.map fun t => Vertex.site t.1).Nodup :=
    (List.nodup_append.1 hg.distinct.jumping).2.1
  have hsources : (g.jumps.map Jump.edge).map (·.source) = whole.draft.gotos.map fun t =>
    Vertex.site t.1 := by
    have hmap := congrArg (List.map Vertex.site) (map_source_of_jumpsOf hg.jumps)
    simpa [Jump.edge, Function.comp_def] using hmap
  exact .of_map _ (hsources ▸ hgotos)

/-- A function without sites has no edges but that to the exit, once or twice. -/
theorem edges_of_no_sites (hg : g.Drafted exitEdges body whole) (hs : g.sites = []) {exits : Bool}
    (he : exitEdges = .ok exits) : g.edges = (if exits then [⟨.start, .exit, .next⟩] else [])
      ++ [⟨.start, .exit, .next⟩] := by
  have hnone := hg.sites_eq_nil_iff.1 hs
  obtain ⟨hedges, hout⟩ := hg.entered.passed hnone
  have hjumps : g.jumps = [] := by
    refine List.eq_nil_iff_forall_not_mem.2 fun j hj => ?_
    obtain ⟨o, -, -, hup⟩ := hg.distinct.jumps _ (hg.source_of_jump hj)
    simp [hnone] at hup
  obtain ⟨exits', he', heq⟩ := hg.edges
  cases he.symm.trans he'
  rw [heq, hedges, hout, hjumps, hnone]
  cases exits <;> rfl

/-- A function with sites has distinct edges. -/
theorem nodup_edges (hg : g.Drafted exitEdges body whole) (hs : g.sites ≠ []) : g.edges.Nodup := by
  have hd := hg.distinct
  obtain ⟨exits, -, heq⟩ := hg.edges
  have hempty : whole.draft.sites.isEmpty = false := by simpa [← hg.sites_eq_nil_iff] using hs
  rw [heq, hempty, if_neg Bool.false_ne_true, List.append_nil]
  have hleave : ∀ x ∈ (if exits then leadTo whole.out .exit else []),
      x.source ∈ sources whole.out ∧ x.target = .exit := by
    intro x hx
    split at hx
    · exact source_mem_of_leadTo hx
    · simp at hx
  refine List.nodup_append.2 ⟨List.nodup_append.2 ⟨hd.edges, ?_, ?_⟩, hg.nodup_jumps, ?_⟩
  · split
    · exact nodup_leadTo hd.out _
    · exact List.nodup_nil
  · rintro x hx _ hx' rfl
    exact hd.stays x hx (hleave x hx').2 (hleave x hx').1
  · rintro x hx _ hx' rfl
    obtain ⟨j, hj, rfl⟩ := List.mem_map.1 hx'
    obtain ⟨hout, hedges⟩ := hd.halts _ (hg.source_of_jump hj)
    exact (List.mem_append.1 hx).elim (fun hx => hedges _ hx rfl) fun hx => hout (hleave _ hx).1

/-- A function with sites is entered at the first one. -/
theorem edges_from_start (hg : g.Drafted exitEdges body whole) (hs : g.sites ≠ []) :
    g.edges.filter (·.source = .start) = [⟨.start, .site 0, .next⟩] := by
  obtain ⟨own, hedges, hown, hout⟩ := hg.entered.led (mt hg.sites_eq_nil_iff.2 hs)
  obtain ⟨exits, -, heq⟩ := hg.edges
  have hempty : whole.draft.sites.isEmpty = false := by simpa [← hg.sites_eq_nil_iff] using hs
  have hrest :
      ∀ x ∈ own ++ (if exits then leadTo whole.out .exit else []) ++ g.jumps.map Jump.edge,
      ¬ x.source = .start := by
    intro x hx hstart
    have hsite : ∀ {k}, ¬ x.source.Within 0 k := by
      rintro k ⟨o, ho, -⟩
      cases hstart.symm.trans ho
    rcases List.mem_append.1 hx with hx | hx
    · rcases List.mem_append.1 hx with hx | hx
      · exact hsite (hown x hx)
      · split at hx
        · exact hsite (hout _ (source_mem_of_leadTo hx).1)
        · simp at hx
    · obtain ⟨j, -, rfl⟩ := List.mem_map.1 hx
      cases hstart
  have hsplit : g.edges = ⟨.start, .site 0, .next⟩
      :: (own ++ (if exits then leadTo whole.out .exit else []) ++ g.jumps.map Jump.edge) := by
    rw [heq, hempty, if_neg Bool.false_ne_true, List.append_nil, hedges]
    rfl
  rw [hsplit, List.filter_cons_of_pos (by simp), List.filter_eq_nil_iff.2 (by simpa using hrest)]

end Drafted

/-- No edge of a flow graph occurs twice, but in a function without sites with edges to the exit:
there the edge from start to exit does. In all other functions one edge leaves the start, and it
leads to the first site if there are sites. -/
theorem edges_distinct {tree : Value} (h : ofTree exitEdges tree = .ok g) :
    (g.edges.Nodup ↔ ¬ (g.sites = [] ∧ exitEdges = .ok true)) ∧
    (g.sites = [] → exitEdges = .ok true →
      g.edges = [⟨.start, .exit, .next⟩, ⟨.start, .exit, .next⟩]) ∧
    (¬ (g.sites = [] ∧ exitEdges = .ok true) → g.edges.filter (·.source = .start)
      = [⟨.start, if g.sites.isEmpty then .exit else .site 0, .next⟩]) := by
  obtain ⟨whole, hg⟩ := exists_drafted (ofBody_of_ofTree h)
  obtain ⟨exits, he, -⟩ := hg.edges
  by_cases hs : g.sites = []
  · have hedges := hg.edges_of_no_sites hs he
    cases exits with
    | true => simp [hedges, hs, he]
    | false => simp [hedges, hs, he]
  · have hnodup := hg.nodup_edges hs
    have hstart := hg.edges_from_start hs
    simp [hs, hnodup, hstart]

end FlowGraph

namespace Sample

/-- Control comes to one site in many ways: around a loop in a loop, past a switch whose cases do
nothing, and back to a label. -/
def meets : Value :=
  function [.node .doWhile [.node .doWhile [.node .block [.list []], name "a"],
      .node .logicalOr [name "b", name "c"]],
    .node .switch [name "c", .list [.node .caseArm [.list [name "one"], .list []],
      .node .caseArm [.list [name "two"], .list [ifElse "d" (.node .block [.list []]) .null]],
      .node .caseArm [.list [name "three"], .list []]]],
    .node .labeled [.str "top", ifElse "e" (.node .goto [.str "top"]) .null]]

/-- Some vertices are joined by edges in parallel, and a site by one with itself; all of them are
different. -/
theorem edges_meets :
    FlowGraph.ofTree (.ok true) meets = .ok (graph meets) ∧ (graph meets).sites.length = 9 ∧
      (graph meets).edges.length = 17 ∧ (graph meets).edges.Nodup ∧
      (graph meets).edges.filter (·.source = .start) = [⟨.start, .site 0, .next⟩] := by
  have h : FlowGraph.ofTree (.ok true) meets = .ok (graph meets) := ofTree_eq (by decide +kernel)
  have hlen : (graph meets).sites.length = 9 := by decide +kernel
  have hne : (graph meets).sites ≠ [] := List.length_pos_iff.1 (hlen ▸ Nat.zero_lt_succ 8)
  obtain ⟨hnodup, -, hstart⟩ := FlowGraph.edges_distinct h
  have hfirst := hstart fun hs => hne hs.1
  rw [if_neg (by rwa [List.isEmpty_iff])] at hfirst
  exact ⟨h, hlen, by decide +kernel, hnodup.2 fun hs => hne hs.1, hfirst⟩

end Sample

end LastUse
