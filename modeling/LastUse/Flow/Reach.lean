import LastUse.Flow.Graph

/-!
# Reachability

Which vertices lie behind or ahead of a vertex. A search takes vertices from a stack, one a round,
and puts those on it that edges lead to. An edge that was taken is not looked at again, so a vertex
that comes up a second time adds nothing.
-/

namespace LastUse

/-- The edges from a vertex. -/
def edgesFrom (edges : List (Vertex × Vertex)) (v : Vertex) : List (Vertex × Vertex) :=
  edges.filter (·.1 = v)

/-- The edges that are not from a vertex. -/
def edgesElsewhere (edges : List (Vertex × Vertex)) (v : Vertex) : List (Vertex × Vertex) :=
  edges.filter (·.1 ≠ v)

/-- Every edge is from a vertex or elsewhere. -/
theorem length_edges (edges : List (Vertex × Vertex)) (v : Vertex) :
    (edgesFrom edges v).length + (edgesElsewhere edges v).length = edges.length := by
  induction edges with
  | nil => rfl
  | cons e rest ih =>
    by_cases h : e.1 = v <;> simp [edgesFrom, edgesElsewhere, h] at ih ⊢ <;> omega

/-- The vertices that come up in at most so many rounds of a search from the vertices on a
stack. -/
def search : (rounds : Nat) → List (Vertex × Vertex) → List Vertex → List Vertex
  | 0, _, _ => []
  | _, _, [] => []
  | rounds + 1, edges, v :: stack =>
    v :: search rounds (edgesElsewhere edges v) ((edgesFrom edges v).map (·.2) ++ stack)

/-- The vertices that a path leads to from a vertex, without that vertex. A round takes one vertex
from the stack, and each edge puts one on it at most once, so one round more than there are edges
is enough. -/
def reachable (edges : List (Vertex × Vertex)) (v : Vertex) : List Vertex :=
  (search (edges.length + 1) edges [v]).filter (· ≠ v)

namespace FlowGraph

/-- The vertices that a path leads to from a vertex, without that vertex. -/
def descendants (g : FlowGraph) (v : Vertex) : List Vertex :=
  reachable (g.edges.map fun e => (e.source, e.target)) v

/-- The vertices from which a path leads to a vertex, without that vertex. -/
def ancestors (g : FlowGraph) (v : Vertex) : List Vertex :=
  reachable (g.edges.map fun e => (e.target, e.source)) v

/-- The ordinals from one to another, both included. -/
def span (first last : Nat) : List Nat := (List.range (last + 1 - first)).map (first + ·)

/-- The sites that a jump can run again: those from its label to itself and, if `precise`, only
those from which control can get to the jump. A jump forward runs none again. -/
def repeatedBy (g : FlowGraph) (precise : Bool) (j : Jump) : List Nat :=
  if !j.goesBack then []
  else if precise then
    let before := g.ancestors (.site j.source)
    (span j.target j.source).filter fun o => o = j.source || before.contains (.site o)
  else span j.target j.source

/-- The sites that some jump can run again, in order. -/
def repeated (g : FlowGraph) (precise : Bool) : List Nat :=
  let all := g.jumps.flatMap (g.repeatedBy precise)
  (List.range g.sites.length).filter all.contains

end FlowGraph

end LastUse
