import Mathlib.Data.List.Perm.Basic
import LastUse.Proofs.Exclusion
import LastUse.Proofs.Multigraph

/-!
# Shown graphs keep all edges

A flow graph is shown as a document with its nodes and its links, and the links are grouped by
source and then by target. What can be read from the document is the graph again
(`FlowGraph.ShownBy`): each edge is one link, links between the same vertices are numbered in the
order of their edges, and the nodes are the vertices in order. The flags of an analysis change none
of this (`FlowGraph.shown_keeps_edges`).
-/

namespace LastUse

/-! ## Grouping -/

section

variable {α β κ : Type} [DecidableEq κ]

/-- A list that is grouped by keys keeps all its elements. -/
theorem flatMap_filter_perm (f : α → κ) {keys : List κ} (hn : keys.Nodup) {l : List α}
    (hl : ∀ x ∈ l, f x ∈ keys) : (keys.flatMap fun k => l.filter (f · = k)).Perm l := by
  induction keys generalizing l with
  | nil =>
    rw [List.eq_nil_iff_forall_not_mem.2 fun x hx => List.not_mem_nil (hl x hx)]
    exact .refl _
  | cons k rest ih =>
    obtain ⟨hk, hrest⟩ := List.nodup_cons.1 hn
    -- The groups of the other keys are groups of what is not in the first one.
    have hothers : (rest.flatMap fun k' => l.filter (f · = k'))
        = rest.flatMap fun k' => (l.filter fun x => !decide (f x = k)).filter (f · = k') := by
      refine List.flatMap_congr fun k' hk' => ?_
      rw [List.filter_filter]
      refine List.filter_congr fun x _ => ?_
      by_cases hx : f x = k'
      · have hne : k' ≠ k := fun he => hk (he ▸ hk')
        simp [hx, hne]
      · simp [hx]
    have hkeys : ∀ x ∈ l.filter fun x => !decide (f x = k), f x ∈ rest := by
      intro x hx
      obtain ⟨hx, hne⟩ := List.mem_filter.1 hx
      exact (List.mem_cons.1 (hl x hx)).resolve_left (by simpa using hne)
    rw [List.flatMap_cons, hothers]
    exact ((ih hrest hkeys).append_left _).trans (List.filter_append_perm _ l)

/-- If at most one key has a group, that group is all. -/
theorem flatMap_eq_of_single {keys : List κ} (hn : keys.Nodup) {F : κ → List β} {a : κ}
    (hF : ∀ k, k ≠ a → F k = []) (ha : a ∉ keys → F a = []) : keys.flatMap F = F a := by
  induction keys with
  | nil => exact (ha List.not_mem_nil).symm
  | cons k rest ih =>
    obtain ⟨hk, hrest⟩ := List.nodup_cons.1 hn
    rw [List.flatMap_cons]
    by_cases hka : k = a
    · subst hka
      have hnone : rest.flatMap F = [] :=
        List.flatMap_eq_nil_iff.2 fun k' hk' => hF k' fun he => hk (he ▸ hk')
      rw [hnone, List.append_nil]
    · rw [hF k hka, List.nil_append, ih hrest fun hm => ha (by simp [hm, Ne.symm hka])]

end

/-! ## Links -/

/-- The edge that a link shows. -/
def Link.edge (l : Link) : Edge := ⟨l.source, l.target, l.label⟩

/-- Whether a link leads from a vertex to another. -/
def Link.joins (u v : Vertex) (l : Link) : Bool := l.source = u && l.target = v

/-- Whether an edge leads from a vertex to another. -/
def Edge.joins (u v : Vertex) (e : Edge) : Bool := e.source = u && e.target = v

section

variable {edges : List Edge} {u v w : Vertex}

/-- The links from a vertex to another show the edges between them, in order. -/
theorem map_edge_linksBetween :
    (linksBetween edges u v).map Link.edge = edges.filter (Edge.joins u v) := by
  have hedge : ∀ x ∈ (edges.filter (Edge.joins u v)).zipIdx,
      Link.edge ⟨u, v, x.1.label, x.2⟩ = x.1 := by
    intro x hx
    have hm := (List.mem_filter.1 (List.fst_mem_of_mem_zipIdx hx)).2
    simp only [Edge.joins, Bool.and_eq_true, decide_eq_true_eq] at hm
    simp [Link.edge, ← hm.1, ← hm.2]
  rw [linksBetween, List.map_map]
  exact (List.map_congr_left hedge).trans (List.zipIdx_map_fst 0 _)

/-- The links from a vertex to another are numbered from zero on. -/
theorem map_key_linksBetween :
    (linksBetween edges u v).map (·.key) = List.range (linksBetween edges u v).length := by
  rw [linksBetween, List.map_map, List.length_map, List.length_zipIdx, List.range_eq_range']
  exact List.zipIdx_map_snd 0 _

/-- The links from a vertex to another lead from the one to the other. -/
theorem joins_of_linksBetween {l : Link} (hl : l ∈ linksBetween edges u v) :
    l.source = u ∧ l.target = v := by
  obtain ⟨x, -, rfl⟩ := List.mem_map.1 hl
  exact ⟨rfl, rfl⟩

/-- Where there is no edge there is no link. -/
theorem linksBetween_eq_nil (h : edges.filter (Edge.joins u v) = []) :
    linksBetween edges u v = [] := by
  rw [linksBetween]
  exact congrArg (fun l => (List.zipIdx l).map _) h

/-- The links from a vertex show the edges from it. -/
theorem map_edge_linksFrom :
    ((linksFrom edges u).map Link.edge).Perm (edges.filter (·.source = u)) := by
  have hgroups : (linksFrom edges u).map Link.edge
      = ((edges.filter (·.source = u)).map (·.target)).eraseDups.flatMap fun v =>
        (edges.filter (·.source = u)).filter (·.target = v) := by
    rw [linksFrom, List.map_flatMap]
    refine List.flatMap_congr fun v _ => ?_
    rw [map_edge_linksBetween, filter_source_target]
    rfl
  rw [hgroups]
  exact flatMap_filter_perm _ (nodup_eraseDups _) fun e he =>
    List.mem_eraseDups.2 (List.mem_map_of_mem he)

/-- Of the links from a vertex those to another are the links between the two. -/
theorem filter_linksFrom_self :
    (linksFrom edges u).filter (Link.joins u v) = linksBetween edges u v := by
  have hgroup : ∀ t, (linksBetween edges u t).filter (Link.joins u v)
      = if t = v then linksBetween edges u v else [] := by
    intro t
    split
    · next ht =>
      subst ht
      exact List.filter_eq_self.2 fun l hl => by simp [Link.joins, joins_of_linksBetween hl]
    · next ht =>
      exact List.filter_eq_nil_iff.2 fun l hl => by
        simp [Link.joins, joins_of_linksBetween hl, ht]
  rw [linksFrom, List.filter_flatMap, flatMap_eq_of_single (nodup_eraseDups _) (a := v)]
  · rw [hgroup, if_pos rfl]
  · exact fun t ht => (hgroup t).trans (if_neg ht)
  · intro hv
    rw [hgroup, if_pos rfl]
    refine linksBetween_eq_nil (List.filter_eq_nil_iff.2 fun e he hj => hv ?_)
    simp only [Edge.joins, Bool.and_eq_true, decide_eq_true_eq] at hj
    exact List.mem_eraseDups.2 (List.mem_map.2 ⟨e, List.mem_filter.2 ⟨he, by simp [hj.1]⟩, hj.2⟩)

/-- Among the links from a vertex there is none from another. -/
theorem filter_linksFrom_of_ne (h : w ≠ u) : (linksFrom edges w).filter (Link.joins u v) = [] := by
  refine List.filter_eq_nil_iff.2 fun l hl => ?_
  obtain ⟨t, -, hl⟩ := List.mem_flatMap.1 hl
  simp [Link.joins, joins_of_linksBetween hl, h]

/-- The links of a graph show its edges, if they begin at its vertices. -/
theorem map_edge_links_perm {vertices : List Vertex} (hn : vertices.Nodup)
    (hs : ∀ e ∈ edges, e.source ∈ vertices) :
    ((vertices.flatMap (linksFrom edges)).map Link.edge).Perm edges := by
  rw [List.map_flatMap]
  exact (List.Perm.flatMap_left _ fun u _ => map_edge_linksFrom).trans
    (flatMap_filter_perm _ hn hs)

/-- Of all links of a graph those from one vertex to another are the links between the two. -/
theorem filter_links {vertices : List Vertex} (hn : vertices.Nodup)
    (hs : ∀ e ∈ edges, e.source ∈ vertices) :
    (vertices.flatMap (linksFrom edges)).filter (Link.joins u v) = linksBetween edges u v := by
  rw [List.filter_flatMap, flatMap_eq_of_single hn (a := u)]
  · exact filter_linksFrom_self
  · exact fun w hw => filter_linksFrom_of_ne hw
  · intro hu
    rw [filter_linksFrom_self]
    refine linksBetween_eq_nil (List.filter_eq_nil_iff.2 fun e he hj => hu ?_)
    simp only [Edge.joins, Bool.and_eq_true, decide_eq_true_eq] at hj
    exact hj.1 ▸ hs e he

end

/-! ## Documents -/

namespace Json

/-- The text that a document is. -/
def text? : Json → Option String
  | .scalar (.str text) => some text
  | _ => none

/-- The natural number that a document is. -/
def nat? : Json → Option Nat
  | .scalar (.int (.ofNat n)) => some n
  | _ => none

/-- The items of an array. -/
def items? : Json → Option (List Json)
  | .arr items => some items
  | _ => none

end Json

/-- The vertex that a document names. -/
def Vertex.ofJson? (doc : Json) : Option Vertex :=
  (doc.nat?.map .site).or (doc.text? >>= fun name => [start, exit].find? (·.text = name))

/-- A vertex is read back from its document. -/
theorem Vertex.ofJson?_toJson (v : Vertex) : ofJson? v.toJson = some v := by
  cases v <;> rfl

/-- The label of an edge that has a name. -/
def EdgeLabel.ofText? (text : String) : Option EdgeLabel :=
  [next, nextLine, posNext, negNext, switchCase, switchExit, loopControl, jumpNext,
    returnExit].find? (·.text = text)

/-- A label is read back from its text. -/
theorem EdgeLabel.ofText?_text (l : EdgeLabel) : ofText? l.text = some l := by
  cases l <;> rfl

/-- The link that a document shows. -/
def Link.ofJson? (doc : Json) : Option Link := do
  let source ← doc.get? "source" >>= Vertex.ofJson?
  let target ← doc.get? "target" >>= Vertex.ofJson?
  let label ← doc.get? "label" >>= Json.text? >>= EdgeLabel.ofText?
  let key ← doc.get? "key" >>= Json.nat?
  some ⟨source, target, label, key⟩

/-- A link is read back from its document. -/
theorem Link.ofJson?_toJson (l : Link) : ofJson? l.toJson = some l := by
  have hsource : l.toJson.get? "source" = some l.source.toJson := rfl
  have htarget : l.toJson.get? "target" = some l.target.toJson := rfl
  have hlabel : l.toJson.get? "label" = some (.str l.label.text) := rfl
  have hkey : l.toJson.get? "key" = some (.nat l.key) := rfl
  simp only [ofJson?, hsource, htarget, hlabel, hkey, Option.bind_eq_bind, Option.bind_some,
    Vertex.ofJson?_toJson, Json.text?, EdgeLabel.ofText?_text]
  rfl

/-- The vertex of a node that a document shows. -/
def ShownNode.vertexOf? (doc : Json) : Option Vertex := doc.get? "id" >>= Vertex.ofJson?

/-- The vertex of a node is read back, if no attribute takes its name. -/
theorem ShownNode.vertexOf?_toJson {n : ShownNode} (h : ∀ a ∈ n.attributes, a.1 ≠ "id") :
    vertexOf? n.toJson = some n.vertex := by
  have hothers : (n.attributes.map fun a => (a.1, a.2.toJson)).lookup "id" = none := by
    rw [List.lookup_eq_none_iff]
    intro m hm
    obtain ⟨a, ha, rfl⟩ := List.mem_map.1 hm
    simpa using (h a ha).symm
  have hid : n.toJson.get? "id" = some n.vertex.toJson := by
    rw [toJson, Json.get?, List.lookup_append, hothers]
    rfl
  rw [vertexOf?, hid]
  exact Vertex.ofJson?_toJson _

/-- The links that a document lists. -/
def Json.links? (doc : Json) : Option (List Link) :=
  doc.get? "links" >>= items? >>= List.mapM Link.ofJson?

/-- The vertices that a document lists. -/
def Json.vertices? (doc : Json) : Option (List Vertex) :=
  doc.get? "nodes" >>= items? >>= List.mapM ShownNode.vertexOf?

/-- If each element can be read back, all can. -/
theorem mapM_map_eq_some {α β γ : Type} {f : α → β} {read : β → Option γ} {h : α → γ} {l : List α}
    (hread : ∀ x ∈ l, read (f x) = some (h x)) : (l.map f).mapM read = some (l.map h) := by
  induction l with
  | nil => rfl
  | cons x rest ih =>
    rw [List.forall_mem_cons] at hread
    rw [List.map_cons, List.mapM_cons, hread.1, ih hread.2]
    rfl

namespace LinkGraph

/-- The links of a graph are read back from its document. -/
theorem links?_toJson (g : LinkGraph) : g.toJson.links? = some g.links := by
  have hlinks : g.toJson.get? "links" = some (.arr (g.links.map Link.toJson)) := rfl
  have hread := mapM_map_eq_some (h := id) fun l (_ : l ∈ g.links) => l.ofJson?_toJson
  rw [List.map_id] at hread
  rw [Json.links?, hlinks]
  exact hread

/-- The vertices of a graph are read back from its document, if no attribute takes the place of
one. -/
theorem vertices?_toJson {g : LinkGraph} (h : ∀ n ∈ g.nodes, ∀ a ∈ n.attributes, a.1 ≠ "id") :
    g.toJson.vertices? = some (g.nodes.map (·.vertex)) := by
  have hnodes : g.toJson.get? "nodes" = some (.arr (g.nodes.map ShownNode.toJson)) := rfl
  rw [Json.vertices?, hnodes]
  exact mapM_map_eq_some fun n hn => ShownNode.vertexOf?_toJson (h n hn)

end LinkGraph

/-! ## Flow graphs -/

namespace FlowGraph

variable {exitEdges : Except Fault Bool} {tree : Value} {g : FlowGraph}

/-- A document shows a flow graph with some links. -/
structure ShownBy (g : FlowGraph) (links : List Link) (doc : Json) : Prop where
  listed : doc.links? = some links
  /-- Each edge is one link. -/
  edges : (links.map Link.edge).Perm g.edges
  /-- Links from one vertex to another are in the order of the edges. -/
  order (u v : Vertex) : (links.filter (Link.joins u v)).map Link.edge =
    g.edges.filter (Edge.joins u v)
  /-- They are numbered in this order. -/
  keys (u v : Vertex) : (links.filter (Link.joins u v)).map (·.key)
    = List.range (g.edges.filter (Edge.joins u v)).length
  nodes : doc.vertices? = some (.start :: .exit :: (List.range g.sites.length).map .site)

/-- The vertices are the start, the exit and the sites by their ordinals. -/
theorem Laid.vertices_eq (h : g.Laid) :
    g.vertices = .start :: .exit :: (List.range g.sites.length).map .site := by
  rw [vertices, ← h.sites, List.map_map]
  rfl

/-- No vertex is listed twice. -/
theorem Laid.nodup_vertices (h : g.Laid) : g.vertices.Nodup := by
  rw [h.vertices_eq]
  have hsites : ((List.range g.sites.length).map Vertex.site).Nodup :=
    List.nodup_range.map fun _ _ he => Vertex.site.inj he
  simp [hsites]

/-- Every edge begins and ends at a vertex of the graph. -/
theorem ends_mem_vertices (h : ofTree exitEdges tree = .ok g) {e : Edge} (he : e ∈ g.edges) :
    e.source ∈ g.vertices ∧ e.target ∈ g.vertices := by
  have hl := laid_of_ofTree h
  obtain ⟨whole, hg⟩ := exists_drafted (ofBody_of_ofTree h)
  have hw := Stmt.fenced.flow hg.flow
  have hlen : g.sites.length = whole.draft.sites.length := by simp [hg.sites, filledSites]
  have hsite : ∀ {o}, o < g.sites.length → .site o ∈ g.vertices :=
    fun ho => by simp [hl.vertices_eq, ho]
  have hwithin : ∀ {v : Vertex}, v.Within 0 whole.draft.sites.length → v ∈ g.vertices := by
    rintro v ⟨o, rfl, -, hup⟩
    exact hsite (by omega)
  have hstart : .start ∈ g.vertices := List.mem_cons_self
  have hexit : .exit ∈ g.vertices := List.mem_cons_of_mem _ List.mem_cons_self
  have hsource :
      ∀ {v : Vertex}, v ∈ sources [(.start, .next)] ∨ v.Within 0 whole.draft.sites.length →
      v ∈ g.vertices := by
    rintro v (hv | hv)
    · rw [sources, List.map_singleton, List.mem_singleton] at hv
      exact hv ▸ hstart
    · exact hwithin hv
  obtain ⟨exits, -, hedges⟩ := hg.edges
  rw [hedges] at he
  simp only [List.mem_append] at he
  rcases he with ((he | he) | he) | he
  · refine ⟨hsource (hw.inside.source e he), ?_⟩
    rcases hw.inside.target e he with ht | ht
    · exact ht ▸ hexit
    · exact hwithin ht
  · split at he
    · obtain ⟨hs, ht⟩ := source_mem_of_leadTo he
      exact ⟨hsource (hw.out_within _ hs), ht ▸ hexit⟩
    · simp at he
  · split at he
    · rw [List.mem_singleton.1 he]
      exact ⟨hstart, hexit⟩
    · simp at he
  · obtain ⟨j, hj, rfl⟩ := List.mem_map.1 he
    exact ⟨hsite (hl.jumps j hj).1, hsite (hl.jumps j hj).2.1⟩

/-- The start, the exit and the sites come in before the edges. -/
theorem exists_multigraph (h : g.Laid) : ∃ m : Multigraph, m.vertices = g.vertices ∧
    (∀ u, m.successors u = []) ∧ m.Plain ∧ g.multigraph = g.edges.foldl Multigraph.addEdge m := by
  refine ⟨_, ?_, fun u => ?_, ?_, rfl⟩
  · have hends : ((Multigraph.empty.addVertex .start (captions "start" "start")).addVertex .exit
        (captions "exit" "exit")).vertices = [.start, .exit] := rfl
    rw [Multigraph.vertices_addSites, hends]
    · rfl
    · rw [hends]
      exact h.nodup_vertices
  · rw [Multigraph.successors_addSites, Multigraph.successors_addVertex,
      Multigraph.successors_addVertex]
    rfl
  · refine .addSites (.addVertex (.addVertex .empty ?_) ?_) ?_ _ <;>
      simp [captions, Site.attributes]

/-- The multigraph of a flow graph has its vertices, and lists the links of one after the other. -/
theorem multigraph_of_ofTree (h : ofTree exitEdges tree = .ok g) :
    g.multigraph.vertices = g.vertices ∧ g.multigraph.Plain ∧
      g.multigraph.shown.links = g.vertices.flatMap (linksFrom g.edges) := by
  have hl := laid_of_ofTree h
  obtain ⟨m, hv, hm, hp, hg⟩ := exists_multigraph hl
  have hs : ∀ e ∈ g.edges, e.source ∈ m.vertices := fun e he => hv ▸ (ends_mem_vertices h he).1
  have ht : ∀ e ∈ g.edges, e.target ∈ m.vertices := fun e he => hv ▸ (ends_mem_vertices h he).2
  rw [hg, Multigraph.vertices_addEdges hs ht,
    Multigraph.links_addEdges (hv ▸ hl.nodup_vertices) hm hs ht, hv]
  exact ⟨rfl, hp.addEdges _, rfl⟩

/-- A flow graph is shown by the document of every multigraph that has its vertices and its
links. -/
theorem shownBy_of_links (h : ofTree exitEdges tree = .ok g) {m : Multigraph}
    (hv : m.vertices = g.vertices) (hp : m.Plain) (hm : m.shown.links = g.links.links) :
    g.ShownBy g.links.links m.shown.toJson := by
  have hl := laid_of_ofTree h
  have hs : ∀ e ∈ g.edges, e.source ∈ g.vertices := fun e he => (ends_mem_vertices h he).1
  have hlinks : g.links.links = g.vertices.flatMap (linksFrom g.edges) :=
    (multigraph_of_ofTree h).2.2
  have hfilter : ∀ u v, g.links.links.filter (Link.joins u v) = linksBetween g.edges u v := by
    intro u v
    rw [hlinks, filter_links hl.nodup_vertices hs]
  constructor
  case listed => rw [LinkGraph.links?_toJson, hm]
  case edges =>
    rw [hlinks]
    exact map_edge_links_perm hl.nodup_vertices hs
  case order =>
    intro u v
    rw [hfilter, map_edge_linksBetween]
  case keys =>
    intro u v
    rw [hfilter, map_key_linksBetween, ← map_edge_linksBetween, List.length_map]
  case nodes =>
    have hnodes : m.shown.nodes.map (·.vertex) = m.vertices := List.map_map
    rw [LinkGraph.vertices?_toJson, hnodes, hv, hl.vertices_eq]
    intro n hn
    obtain ⟨x, hx, rfl⟩ := List.mem_map.1 hn
    exact hp x hx

end FlowGraph

/-- With the attributes of an analysis the graph of a session has the same vertices and links. -/
theorem Session.shown_annotated {exitEdges : Except Fault Bool} {tree : Value} {s : Session}
    (h : FlowGraph.ofTree exitEdges tree = .ok s.graph) (a : Analysis) :
    (s.annotated a).vertices = s.graph.vertices ∧ (s.annotated a).Plain ∧
      (s.annotated a).shown.links = s.graph.links.links := by
  have hl := FlowGraph.laid_of_ofTree h
  obtain ⟨hv, hp, -⟩ := FlowGraph.multigraph_of_ofTree h
  have hsites : ∀ site ∈ s.graph.sites, .site site.ordinal ∈ s.graph.multigraph.vertices := by
    intro site hm
    rw [hv]
    exact List.mem_cons_of_mem _ (List.mem_cons_of_mem _ (List.mem_map_of_mem hm))
  have hsame : (s.annotated a).vertices = s.graph.multigraph.vertices :=
    Multigraph.vertices_addSites_of_mem hsites
  refine ⟨hsame.trans hv, hp.addSites (by simp [Analysis.attributes]) _, ?_⟩
  rw [FlowGraph.links, Multigraph.links_shown (by rw [hsame, hv]; exact hl.nodup_vertices),
    Multigraph.links_shown (by rw [hv]; exact hl.nodup_vertices), hsame]
  exact List.flatMap_congr fun u _ => by rw [annotated, Multigraph.successors_addSites]

/-- A session shows its graph with an analysis, unless the name of the binding is no key or the
settings for the sites that reset it cannot be read. -/
theorem Session.run_links (s : Session) (b : Binding) (m : Memory) :
    (∃ (a : Analysis) (m' : Memory), (s.links b).run.run m = (.ok (s.annotated a).shown, m')) ∨
      ∃ f, (s.links b).run.run m = (.error f, m) ∧
        (b.name.isKey = false ∨ s.settings.extraResets b.name = .error f) := by
  rw [links, run_bind, run_analysis]
  cases hk : b.name.isKey with
  | false => exact .inr ⟨_, rfl, .inl rfl⟩
  | true =>
    cases hm : m.find? b with
    | some a => exact .inl ⟨a, m, rfl⟩
    | none =>
      rw [analysisWith]
      cases hr : s.settings.extraResets b.name with
      | error f => exact .inr ⟨f, rfl, .inr rfl⟩
      | ok resets => exact .inl ⟨_, _, rfl⟩

/-- The document of a flow graph has one link for each edge, with links between the same vertices
numbered in the order of their edges, and one node for each vertex, in order. With the flags of an
analysis it has the same links and the same nodes in the same order. -/
theorem FlowGraph.shown_keeps_edges {exitEdges : Except Fault Bool} {tree : Value} {g : FlowGraph}
    (h : ofTree exitEdges tree = .ok g) :
    ∃ links, g.ShownBy links g.links.toJson ∧ ∀ s : Session, s.graph = g →
      ∀ (b : Binding) (m : Memory), (∃ view m', (s.links b).run.run m = (.ok view, m') ∧
        g.ShownBy links view.toJson) ∨ ∃ f, (s.links b).run.run m = (.error f, m) ∧
          (b.name.isKey = false ∨ s.settings.extraResets b.name = .error f) := by
  obtain ⟨hv, hp, -⟩ := multigraph_of_ofTree h
  refine ⟨g.links.links, shownBy_of_links h hv hp rfl, ?_⟩
  rintro s rfl b m
  rcases s.run_links b m with ⟨a, m', hrun⟩ | hfail
  · obtain ⟨hv, hp, hm⟩ := Session.shown_annotated h a
    exact .inl ⟨_, m', hrun, shownBy_of_links h hv hp hm⟩
  · exact .inr hfail

namespace Sample

/-- A loop without a body and a branch without arms. -/
def joinsTwice : Value :=
  function [whileLoop "c" [], ifElse "d" (.node .block [.list []]) .null, use "x"]

/-- Two edges in parallel are two links, numbered in order, and the edge around the loop is one.
The document with the flags of an analysis has the same links. -/
theorem shownBy_joinsTwice :
    FlowGraph.ofTree (.ok (session joinsTwice).settings.exitEdges) joinsTwice =
      .ok (session joinsTwice).graph ∧
    ∃ links, (session joinsTwice).graph.ShownBy links (session joinsTwice).graph.links.toJson ∧
      (links.filter (Link.joins (.site 1) (.site 2))).map Link.edge
        = [⟨.site 1, .site 2, .posNext⟩, ⟨.site 1, .site 2, .negNext⟩] ∧
      (links.filter (Link.joins (.site 1) (.site 2))).map (·.key) = [0, 1] ∧
      (links.filter (Link.joins (.site 0) (.site 0))).map Link.edge =
        [⟨.site 0, .site 0, .loopControl⟩] ∧
      ∃ view m, ((session joinsTwice).links x).run.run .empty = (.ok view, m) ∧
        (session joinsTwice).graph.ShownBy links view.toJson := by
  have h := Session.graph_eq (session_eq (by decide +kernel) : Session.ofTree .null joinsTwice = _)
  have hpair : (session joinsTwice).graph.edges.filter (Edge.joins (.site 1) (.site 2))
      = [⟨.site 1, .site 2, .posNext⟩, ⟨.site 1, .site 2, .negNext⟩] := by decide +kernel
  have hloop : (session joinsTwice).graph.edges.filter (Edge.joins (.site 0) (.site 0))
      = [⟨.site 0, .site 0, .loopControl⟩] := by decide +kernel
  have hresets : (session joinsTwice).settings.extraResets x.name = .ok [] := rfl
  obtain ⟨links, hplain, hview⟩ := FlowGraph.shown_keeps_edges h
  refine ⟨h, links, hplain, (hplain.order _ _).trans hpair, ?_, (hplain.order _ _).trans hloop, ?_⟩
  · rw [hplain.keys, hpair]
    rfl
  · rcases hview _ rfl x .empty with hview | ⟨f, -, hname | hfail⟩
    · exact hview
    · cases hname
    · cases hresets.symm.trans hfail

end Sample

end LastUse
