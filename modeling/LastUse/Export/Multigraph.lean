import LastUse.Entries
import LastUse.Flow.Site

/-!
# Multigraphs

A graph whose vertices have attributes and in which several edges may lead from one vertex to
another. It is put together step by step: vertices are listed in the order in which they came in,
so are the vertices that edges from one vertex lead to, and the edges with the same ends are
numbered as they come in.
-/

namespace LastUse

/-- What an attribute of a vertex holds. -/
inductive Attribute where
  | text (s : String)
  | flag (b : Bool)
deriving DecidableEq, Repr, Inhabited

/-- Attributes by names. -/
abbrev Attributes := List (String × Attribute)

/-- Attributes with changes laid over them. -/
def Attributes.lay (attributes changes : Attributes) : Attributes :=
  changes.foldl (fun as a => setEntry a.1 a.2 as) attributes

/-- The edges from a vertex by their targets: for each of them the labels of the edges, by
numbers. -/
abbrev Successors := List (Vertex × List (Nat × EdgeLabel))

/-- The successors with one more edge, numbered behind those to the same target. -/
def Successors.add (target : Vertex) (label : EdgeLabel) : Successors → Successors :=
  alterEntry target fun labels => (labels.getD []) ++ [((labels.getD []).length, label)]

/-- What a multigraph keeps of a vertex. -/
structure VertexEntry where
  attributes : Attributes
  successors : Successors
deriving DecidableEq, Repr, Inhabited

/-- The entry of a vertex that just came in. -/
def VertexEntry.fresh : VertexEntry := ⟨[], []⟩

/-- A multigraph. -/
structure Multigraph where
  entries : List (Vertex × VertexEntry)
deriving DecidableEq, Repr, Inhabited

namespace Multigraph

/-- The graph without vertices. -/
def empty : Multigraph := ⟨[]⟩

/-- The graph with the entry of a vertex changed; a vertex that is not there comes in. -/
def alter (g : Multigraph) (v : Vertex) (change : VertexEntry → VertexEntry) : Multigraph :=
  ⟨alterEntry v (fun entry => change (entry.getD .fresh)) g.entries⟩

/-- The graph with a vertex and some attributes of it set. -/
def addVertex (g : Multigraph) (v : Vertex) (attributes : Attributes) : Multigraph :=
  g.alter v fun entry => { entry with attributes := entry.attributes.lay attributes }

/-- The graph with one more edge. Ends of it that are not there come in without attributes. -/
def addEdge (g : Multigraph) (e : Edge) : Multigraph :=
  ((g.addVertex e.source []).addVertex e.target []).alter e.source fun entry =>
    { entry with successors := Successors.add e.target e.label entry.successors }

/-- The vertices, as they came in. -/
def vertices (g : Multigraph) : List Vertex := g.entries.map (·.1)

end Multigraph

end LastUse
