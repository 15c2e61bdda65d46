import LastUse.Export.Multigraph
import LastUse.Session

/-!
# Graphs of nodes and links

A flow graph as it is shown: it is put together as a multigraph, whose vertices are then listed as
nodes and whose edges as links.
-/

namespace LastUse

/-- The name of a vertex that is no site, or the ordinal of one that is. -/
def Vertex.toJson : Vertex → Json
  | .start => .str "start"
  | .exit => .str "exit"
  | .site o => .nat o

/-- The text of a vertex. -/
def Vertex.text : Vertex → String
  | .start => "start"
  | .exit => "exit"
  | .site o => toString o

/-- A shown vertex. -/
structure ShownNode where
  vertex : Vertex
  attributes : Attributes
deriving DecidableEq, Repr, Inhabited

/-- A shown edge. -/
structure Link where
  source : Vertex
  target : Vertex
  label : EdgeLabel
  /-- The number of the edge among those from its source to its target. -/
  key : Nat
deriving DecidableEq, Repr, Inhabited

/-- A graph of nodes and links. -/
structure LinkGraph where
  nodes : List ShownNode
  links : List Link
deriving DecidableEq, Repr, Inhabited

/-- The links from a source to its successors. -/
def Successors.links (source : Vertex) (successors : Successors) : List Link :=
  successors.flatMap fun s => s.2.map fun l => ⟨source, s.1, l.2, l.1⟩

/-- A multigraph as nodes and links: the links by sources, then by targets, then by numbers. -/
def Multigraph.shown (g : Multigraph) : LinkGraph where
  nodes := g.entries.map fun v => ⟨v.1, v.2.attributes⟩
  links := g.entries.flatMap fun v => v.2.successors.links v.1

/-- The attributes that say what a vertex is. -/
def captions (label kind : String) : Attributes := [("label", .text label), ("kind", .text kind)]

/-- The attributes of a site. -/
def Site.attributes (s : Site) : Attributes :=
  captions s.label s.kind.text ++ [("in_loop", .flag s.inLoop), ("in_return", .flag s.inReturn)]

/-- A multigraph with attributes of some sites set. -/
def Multigraph.addSites (g : Multigraph) (attributes : Site → Attributes) (sites : List Site) :
    Multigraph :=
  sites.foldl (fun g s => g.addVertex (.site s.ordinal) (attributes s)) g

/-- The flow graph as a multigraph: the start, the exit and the sites come in, then the edges. -/
def FlowGraph.multigraph (g : FlowGraph) : Multigraph :=
  let ends := (Multigraph.empty.addVertex .start (captions "start" "start")).addVertex .exit
    (captions "exit" "exit")
  g.edges.foldl Multigraph.addEdge (ends.addSites Site.attributes g.sites)

/-- The flow graph as nodes and links. -/
def FlowGraph.links (g : FlowGraph) : LinkGraph := g.multigraph.shown

/-- The attributes of a site that an analysis adds. -/
def Analysis.attributes (a : Analysis) (o : Nat) : Attributes :=
  let access := a.scan.access o
  [("accesses", .flag access.accesses), ("address_of", .flag access.addressOf),
   ("poisoned", .flag (a.escape.poisonedAt o)), ("candidate", .flag (a.verdict.sites.contains o)),
   ("last_access", .flag (a.eligible.contains o))]

/-- The flow graph of a session with the attributes that an analysis adds to its sites. -/
def Session.annotated (s : Session) (a : Analysis) : Multigraph :=
  s.graph.multigraph.addSites (fun site => a.attributes site.ordinal) s.graph.sites

/-- The flow graph of a session as nodes and links, with the analysis of a binding. -/
def Session.links (s : Session) (b : Binding) : Query LinkGraph := do
  let a ← s.analysis b
  pure (s.annotated a).shown

/-- An attribute as a document. -/
def Attribute.toJson : Attribute → Json
  | .text s => .str s
  | .flag b => .bool b

/-- The members of a shown vertex. -/
def ShownNode.toJson (n : ShownNode) : Json :=
  .obj (n.attributes.map (fun a => (a.1, a.2.toJson)) ++ [("id", n.vertex.toJson)])

/-- The members of a shown edge. -/
def Link.toJson (l : Link) : Json :=
  .obj [("label", .str l.label.text), ("source", l.source.toJson), ("target", l.target.toJson),
    ("key", .nat l.key)]

/-- The graph as a document. -/
def LinkGraph.toJson (g : LinkGraph) : Json :=
  .obj [("directed", .bool true), ("multigraph", .bool true), ("graph", .obj []),
    ("nodes", .arr (g.nodes.map ShownNode.toJson)), ("links", .arr (g.links.map Link.toJson))]

end LastUse
