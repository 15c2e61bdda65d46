import LastUse.Export.Links
import LastUse.Proofs.Flow.Turns

/-!
# How multigraphs are put together

A step that adds a vertex or an edge leaves the vertices as they were, but for those that come in,
and changes the successors of at most one of them (`Multigraph.vertices_alter`,
`Multigraph.successors_addEdge`). So after any number of edges the successors of a vertex are the
targets of its edges, in the order in which edges first led to them, each with its edges numbered
in order (`Multigraph.successors_addEdges`). If the edges begin and end at vertices that are there
already, the graph lists the links of one vertex after the other (`Multigraph.links_addEdges`).
-/

namespace LastUse

/-! ## Successors -/

/-- One more element is a further one unless it was there before. -/
theorem eraseDups_append_singleton {α : Type} [BEq α] [LawfulBEq α] {l : List α} {a : α} :
    (l ++ [a]).eraseDups = if a ∈ l then l.eraseDups else l.eraseDups ++ [a] := by
  rw [List.eraseDups_append]
  split <;> simp [List.removeAll, List.eraseDups_cons, *]

/-- The edges to a target, numbered in order. -/
def numberedTo (edges : List Edge) (v : Vertex) : List (Nat × EdgeLabel) :=
  (edges.filter (·.target = v)).zipIdx.map fun e => (e.2, e.1.label)

/-- The successors that edges from one vertex make up. -/
def successorsBy (edges : List Edge) : Successors :=
  (edges.map (·.target)).eraseDups.map fun v => (v, numberedTo edges v)

section

variable {edges : List Edge} {e : Edge} {v : Vertex}

/-- One more edge is numbered behind those to its target, and the others keep their numbers. -/
theorem numberedTo_append : numberedTo (edges ++ [e]) v
    = if v = e.target then numberedTo edges v ++ [((numberedTo edges v).length, e.label)]
      else numberedTo edges v := by
  by_cases hv : v = e.target
  · subst hv
    simp [numberedTo, List.filter_append, List.zipIdx_append]
  · have hne : ¬ e.target = v := Ne.symm hv
    simp [numberedTo, List.filter_append, hv, hne]

/-- One more edge is added to the successors. -/
theorem successorsBy_append :
    successorsBy (edges ++ [e]) = Successors.add e.target e.label (successorsBy edges) := by
  rw [Successors.add, successorsBy, successorsBy, alterEntry_map (nodup_eraseDups _),
    List.map_append, List.map_singleton, eraseDups_append_singleton]
  by_cases hm : e.target ∈ edges.map (·.target)
  · rw [if_pos (List.mem_eraseDups.2 hm), if_pos hm]
    refine List.map_congr_left fun v _ => ?_
    rw [numberedTo_append]
    split
    · next hv => rw [hv, Option.getD_some]
    · rfl
  · have hfirst : numberedTo edges e.target = [] := by
      have hne : ∀ x ∈ edges, ¬ x.target = e.target :=
        fun x hx ht => hm (List.mem_map.2 ⟨x, hx, ht⟩)
      simpa [numberedTo] using hne
    rw [if_neg fun h => hm (List.mem_eraseDups.1 h), if_neg hm, List.map_append,
      List.map_singleton, numberedTo_append, if_pos rfl, hfirst]
    refine congrArg (· ++ _) (List.map_congr_left fun v hv => ?_)
    rw [numberedTo_append, if_neg]
    rintro rfl
    exact hm (List.mem_eraseDups.1 hv)

/-- Edges that are added one after the other make up the successors. -/
theorem foldl_add_eq_successorsBy :
    edges.foldl (fun s e => Successors.add e.target e.label s) [] = successorsBy edges := by
  induction edges using List.reverseRecOn with
  | nil => rfl
  | append_singleton edges e ih => rw [List.foldl_append, ih, successorsBy_append]; rfl

end

/-! ## Steps -/

namespace Multigraph

variable {m : Multigraph} {u v : Vertex} {change : VertexEntry → VertexEntry}

/-- The successors of a vertex; one that is not there has none. -/
def successors (m : Multigraph) (u : Vertex) : Successors :=
  ((m.entries.lookup u).getD .fresh).successors

/-- A changed vertex keeps its place, and a new one comes last. -/
theorem vertices_alter : (m.alter v change).vertices
    = if v ∈ m.vertices then m.vertices else m.vertices ++ [v] :=
  map_fst_alterEntry

/-- A change of a vertex that is there leaves the vertices as they are. -/
theorem vertices_alter_of_mem (h : v ∈ m.vertices) : (m.alter v change).vertices = m.vertices := by
  rw [vertices_alter, if_pos h]

/-- A change of one vertex leaves the successors of the others. -/
theorem successors_alter : (m.alter v change).successors u
    = if u = v then (change ((m.entries.lookup v).getD .fresh)).successors
      else m.successors u := by
  rw [successors, alter, lookup_alterEntry]
  split <;> rfl

/-- A vertex that is added leads nowhere. -/
theorem successors_addVertex {attributes : Attributes} :
    (m.addVertex v attributes).successors u = m.successors u := by
  rw [addVertex, successors_alter]
  split
  · next hu => rw [hu]; rfl
  · rfl

/-- An edge that is added is one more from its source. -/
theorem successors_addEdge {e : Edge} : (m.addEdge e).successors u
    = if u = e.source then Successors.add e.target e.label (m.successors u)
      else m.successors u := by
  rw [addEdge, successors_alter]
  split
  · next hu =>
    rw [hu]
    exact congrArg (Successors.add e.target e.label)
      (successors_addVertex.trans successors_addVertex)
  · rw [successors_addVertex, successors_addVertex]

/-- An edge between vertices that are there brings in none. -/
theorem vertices_addEdge {e : Edge} (hs : e.source ∈ m.vertices) (ht : e.target ∈ m.vertices) :
    (m.addEdge e).vertices = m.vertices := by
  have hsource : (m.addVertex e.source []).vertices = m.vertices := vertices_alter_of_mem hs
  have hends : ((m.addVertex e.source []).addVertex e.target []).vertices = m.vertices :=
    (vertices_alter_of_mem (hsource ▸ ht)).trans hsource
  rw [addEdge, vertices_alter_of_mem (hends ▸ hs), hends]

/-! ## Runs -/

/-- Edges that are added one after the other are further ones from their sources. -/
theorem successors_foldl_addEdge {edges : List Edge} : (edges.foldl addEdge m).successors u
    = (edges.filter (·.source = u)).foldl (fun s e => Successors.add e.target e.label s)
      (m.successors u) := by
  induction edges generalizing m with
  | nil => rfl
  | cons e rest ih =>
    rw [List.foldl_cons, ih, successors_addEdge, List.filter_cons]
    by_cases hu : u = e.source
    · simp [hu]
    · have hne : ¬ e.source = u := Ne.symm hu
      simp [hu, hne]

/-- Where nothing was led to before, the successors of a vertex are what the edges from it make
up. -/
theorem successors_addEdges {edges : List Edge} (hm : ∀ u, m.successors u = []) :
    (edges.foldl addEdge m).successors u = successorsBy (edges.filter (·.source = u)) := by
  rw [successors_foldl_addEdge, hm, foldl_add_eq_successorsBy]

/-- Edges between vertices that are there bring in none. -/
theorem vertices_addEdges {edges : List Edge} (hs : ∀ e ∈ edges, e.source ∈ m.vertices)
    (ht : ∀ e ∈ edges, e.target ∈ m.vertices) : (edges.foldl addEdge m).vertices = m.vertices := by
  induction edges generalizing m with
  | nil => rfl
  | cons e rest ih =>
    rw [List.forall_mem_cons] at hs ht
    have he := vertices_addEdge hs.1 ht.1
    rw [List.foldl_cons, ih (he ▸ hs.2) (he ▸ ht.2), he]

/-- New sites come in behind the vertices that are there. -/
theorem vertices_addSites {attributes : Site → Attributes} {sites : List Site}
    (hn : (m.vertices ++ sites.map fun s => Vertex.site s.ordinal).Nodup) :
    (m.addSites attributes sites).vertices = m.vertices ++ sites.map fun s => .site s.ordinal := by
  induction sites generalizing m with
  | nil => simp [addSites]
  | cons s rest ih =>
    have hs : Vertex.site s.ordinal ∉ m.vertices := by
      intro hm
      exact (List.nodup_append.1 hn).2.2 _ hm _ List.mem_cons_self rfl
    have hstep : (m.addVertex (.site s.ordinal) (attributes s)).vertices
        = m.vertices ++ [.site s.ordinal] := by
      rw [addVertex, vertices_alter, if_neg hs]
    have hrest :=
      ih (m := m.addVertex (.site s.ordinal) (attributes s)) (by simpa [hstep] using hn)
    rw [hstep, List.append_assoc] at hrest
    exact hrest

/-- Sites that are there stay in their places. -/
theorem vertices_addSites_of_mem {attributes : Site → Attributes} {sites : List Site}
    (hs : ∀ s ∈ sites, .site s.ordinal ∈ m.vertices) :
    (m.addSites attributes sites).vertices = m.vertices := by
  induction sites generalizing m with
  | nil => rfl
  | cons s rest ih =>
    rw [List.forall_mem_cons] at hs
    have hstep : (m.addVertex (.site s.ordinal) (attributes s)).vertices = m.vertices :=
      vertices_alter_of_mem hs.1
    exact (ih (hstep ▸ hs.2)).trans hstep

/-- Sites that are added lead nowhere. -/
theorem successors_addSites {attributes : Site → Attributes} {sites : List Site} :
    (m.addSites attributes sites).successors u = m.successors u := by
  induction sites generalizing m with
  | nil => rfl
  | cons s rest ih => exact ih.trans successors_addVertex

end Multigraph

/-! ## Links -/

/-- The links from a source to a target, numbered in the order of their edges. -/
def linksBetween (edges : List Edge) (source target : Vertex) : List Link :=
  ((edges.filter fun e => e.source = source && e.target = target).zipIdx).map fun e =>
    ⟨source, target, e.1.label, e.2⟩

/-- The links from a source, by targets in the order in which edges first lead to them. -/
def linksFrom (edges : List Edge) (source : Vertex) : List Link :=
  ((edges.filter (·.source = source)).map (·.target)).eraseDups.flatMap (linksBetween edges source)

/-- Of the edges from a vertex those to another are the edges between the two. -/
theorem filter_source_target {edges : List Edge} {u v : Vertex} :
    (edges.filter (·.source = u)).filter (·.target = v)
      = edges.filter fun e => e.source = u && e.target = v := by
  rw [List.filter_filter]
  exact List.filter_congr fun e _ => Bool.and_comm _ _

/-- The successors that the edges from a vertex make up are listed as its links. -/
theorem links_successorsBy {edges : List Edge} {u : Vertex} :
    (successorsBy (edges.filter (·.source = u))).links u = linksFrom edges u := by
  rw [Successors.links, successorsBy, List.flatMap_map, linksFrom]
  refine List.flatMap_congr fun v _ => ?_
  rw [numberedTo, filter_source_target, List.map_map, linksBetween]
  rfl

namespace Multigraph

variable {m : Multigraph}

/-- The links of a multigraph are those of its vertices, one after the other. -/
theorem links_shown (hn : m.vertices.Nodup) :
    m.shown.links = m.vertices.flatMap fun u => (m.successors u).links u := by
  have hown : ∀ n ∈ m.entries, n.2.successors = m.successors n.1 := by
    intro n hm
    obtain ⟨before, behind, he⟩ := List.append_of_mem hm
    have hlookup : m.entries.lookup n.1 = some n.2 := by
      refine List.lookup_eq_some_iff.2 ⟨before, behind, he, fun x hx => ?_⟩
      rw [vertices, he, List.map_append, List.map_cons, List.nodup_append] at hn
      have hne := hn.2.2 x.1 (List.mem_map_of_mem hx) n.1 List.mem_cons_self
      simpa using hne.symm
    rw [successors, hlookup, Option.getD_some]
  rw [shown, vertices, List.flatMap_map]
  exact List.flatMap_congr fun n hm => by rw [hown n hm]

/-- A multigraph without edges lists the links of its vertices in order when edges between them
have been added. -/
theorem links_addEdges {edges : List Edge} (hn : m.vertices.Nodup) (hm : ∀ u, m.successors u = [])
    (hs : ∀ e ∈ edges, e.source ∈ m.vertices) (ht : ∀ e ∈ edges, e.target ∈ m.vertices) :
    (edges.foldl addEdge m).shown.links = m.vertices.flatMap (linksFrom edges) := by
  have hv := vertices_addEdges hs ht
  rw [links_shown (hv ▸ hn), hv]
  exact List.flatMap_congr fun u _ => by rw [successors_addEdges hm, links_successorsBy]

/-! ## Attributes -/

/-- No vertex has an attribute with the name of another member of its node. -/
def Plain (m : Multigraph) : Prop := ∀ v ∈ m.entries, ∀ a ∈ v.2.attributes, a.1 ≠ "id"

/-- Attributes under other names keep other names. -/
theorem forall_mem_lay {P : String × Attribute → Prop} {attributes changes : Attributes}
    (h : ∀ a ∈ attributes, P a) (hc : ∀ a ∈ changes, P a) : ∀ a ∈ attributes.lay changes, P a := by
  induction changes generalizing attributes with
  | nil => exact h
  | cons c rest ih =>
    rw [List.forall_mem_cons] at hc
    exact ih (forall_mem_alterEntry h fun _ _ => hc.1) hc.2

/-- The graph without vertices has no attributes. -/
theorem Plain.empty : empty.Plain := by simp [Plain, Multigraph.empty]

/-- A change that keeps a vertex plain keeps all of them so. -/
theorem Plain.alter (h : m.Plain) {v : Vertex} {change : VertexEntry → VertexEntry}
    (hc : ∀ entry, (∀ a ∈ entry.attributes, a.1 ≠ "id") → ∀ a ∈ (change entry).attributes,
      a.1 ≠ "id") : (m.alter v change).Plain := by
  refine forall_mem_alterEntry h fun value hold => hc _ ?_
  cases value with
  | none => simp [VertexEntry.fresh]
  | some old => exact hold old rfl

/-- A vertex may be added with attributes of other names. -/
theorem Plain.addVertex (h : m.Plain) {v : Vertex} {attributes : Attributes}
    (ha : ∀ a ∈ attributes, a.1 ≠ "id") : (m.addVertex v attributes).Plain :=
  h.alter fun _ he => forall_mem_lay he ha

/-- An edge brings in no attributes. -/
theorem Plain.addEdge (h : m.Plain) (e : Edge) : (m.addEdge e).Plain :=
  ((h.addVertex (by simp)).addVertex (by simp)).alter fun _ he => he

/-- Several edges bring in no attributes. -/
theorem Plain.addEdges (h : m.Plain) (edges : List Edge) :
    (edges.foldl Multigraph.addEdge m).Plain := by
  induction edges generalizing m with
  | nil => exact h
  | cons e rest ih => exact ih (h.addEdge e)

/-- Sites may be added with attributes of other names. -/
theorem Plain.addSites (h : m.Plain) {attributes : Site → Attributes}
    (ha : ∀ s, ∀ a ∈ attributes s, a.1 ≠ "id") (sites : List Site) :
    (m.addSites attributes sites).Plain := by
  induction sites generalizing m with
  | nil => exact h
  | cons s rest ih => exact ih (h.addVertex (ha s))

end Multigraph

end LastUse
