import LastUse.Flow.Body

/-!
# Flow graphs

`FlowGraph.ofTree` builds the flow graph of a function: it drafts the flow through the body, leads
what comes out of it to the exit and each `goto` to its label.
-/

namespace LastUse

/-- A `goto` and the site of the label it names. -/
structure Jump where
  source : Nat
  target : Nat
  label : String
deriving DecidableEq, Repr, Inhabited

/-- Whether a jump goes back, or to itself. -/
def Jump.goesBack (j : Jump) : Bool := j.target ≤ j.source

/-- The edge of a jump. -/
def Jump.edge (j : Jump) : Edge := ⟨.site j.source, .site j.target, .jumpNext⟩

/-- The flow graph of a function. -/
structure FlowGraph where
  sites : List Site
  edges : List Edge
  labels : List (String × Nat)
  jumps : List Jump
  region : List Region
  /-- Places of expression nodes with the ordinals of the sites that own them. -/
  owned : List (Path × Nat)
deriving Repr, Inhabited

namespace FlowGraph

/-- The jumps of `goto` sites, each to the site with the label it names. -/
def jumpsOf (labels : List (String × Nat)) : List (Nat × String) → Except Fault (List Jump)
  | [] => .ok []
  | (source, label) :: rest =>
    match labels.lookup label with
    | none => .error (.malformed (.undefinedLabel label))
    | some target => do
      let jumps ← jumpsOf labels rest
      pure (⟨source, target, label⟩ :: jumps)

/-- The sites of a draft with the expressions attached to them. -/
def filledSites (d : Draft) : List Site :=
  d.sites.map fun s =>
    { s with exprs := d.attached.filterMap fun a => if a.1 = s.ordinal then some a.2 else none }

/-- The flow graph of a function body. A function without sites has an edge from start to exit. -/
def ofBody (exitEdges : Except Fault Bool) (body : Stmt) : Except Fault FlowGraph := do
  let whole ← body.flow (.outermost exitEdges) ⟨0, []⟩ [(.start, .next)]
  let exits ← exitEdges
  let leave := if exits then leadTo whole.out .exit else []
  let skip := if whole.draft.sites.isEmpty then [⟨.start, .exit, .next⟩] else []
  let jumps ← jumpsOf whole.draft.labels whole.draft.gotos
  pure {
    sites := filledSites whole.draft
    edges := whole.draft.edges ++ leave ++ skip ++ jumps.map Jump.edge
    labels := whole.draft.labels
    jumps := jumps
    region := whole.draft.region
    owned := whole.draft.owned }

/-- The flow graph of the function that a tree holds. -/
def ofTree (exitEdges : Except Fault Bool) : Value → Except Fault FlowGraph
  | .node .function [_, _, .node .block fields] =>
    ofBody exitEdges (.ofValue (Path.root.field "body") (.node .block fields))
  | .node .function _ => .error (.malformed .bodyNotABlock)
  | v => .error (.malformed (.notAFunction v.typeName))

/-- The sites of the statement at a place. -/
def stmtSites (g : FlowGraph) (p : Path) : List Nat :=
  (g.sites.filter fun s => s.stmt = p).map (·.ordinal)

/-- The sites of the node at a place: all of a statement, the owner of an expression. -/
def sitesAt (g : FlowGraph) (p : Path) : List Nat :=
  match g.stmtSites p with
  | [] => (g.owned.lookup p).toList
  | ordinals => ordinals

/-- The site at a position, counted from the end if it is negative. -/
def siteAt (g : FlowGraph) (position : Int) : Except Fault Site :=
  let i := if position < 0 then position + g.sites.length else position
  if i < 0 then .error .outOfRange
  else
    match g.sites[i.toNat]? with
    | some s => .ok s
    | none => .error .outOfRange

/-- All vertices: the start, the exit, and the sites in order. -/
def vertices (g : FlowGraph) : List Vertex :=
  .start :: .exit :: g.sites.map fun s => .site s.ordinal

end FlowGraph

end LastUse
