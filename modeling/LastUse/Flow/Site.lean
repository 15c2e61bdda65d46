import LastUse.Expr.Basic

/-!
# Sites, edges and regions

A function body is cut into sites, numbered in the order in which they are made. Edges lead from
site to site, from the start of the function and to its exit. Regions keep how the sites are nested
in the arms of branches and in the bodies of loops.
-/

namespace LastUse

/-- What a site is in the function body. -/
inductive SiteKind where
  | plain
  | ret
  | loopHeader
  | loopBody
  | label
  | goto
  | logicalAnd
  | logicalOr
deriving DecidableEq, Repr, Inhabited

/-- The name of a kind of site. -/
def SiteKind.text : SiteKind → String
  | .plain => "plain"
  | .ret => "return"
  | .loopHeader => "loop-header"
  | .loopBody => "loop-body"
  | .label => "label"
  | .goto => "goto"
  | .logicalAnd => "logical-and"
  | .logicalOr => "logical-or"

/-- The kind of the sites of a connective's operands. -/
def Connective.siteKind : Connective → SiteKind
  | .and => .logicalAnd
  | .or => .logicalOr

/-- A place in the execution of a function where expressions are evaluated. -/
structure Site where
  ordinal : Nat
  kind : SiteKind
  /-- The place of the statement that the site belongs to. -/
  stmt : Path
  label : String
  /-- Whether the site stands in the header or the body of a loop. -/
  inLoop : Bool
  /-- Whether the site belongs to a `return`. -/
  inReturn : Bool
  /-- The label that a `goto` names the site by. -/
  labelName : Option String
  /-- The expressions evaluated at the site, in order; no connective occurs in them. -/
  exprs : List Expr
deriving Repr, Inhabited

/-- The site as it is spelled in messages. -/
def Site.spelling (s : Site) : String :=
  "Site(" ++ toString s.ordinal ++ ", " ++ s.kind.text ++ ", " ++ Text.quoted s.label ++ ")"

/-- A vertex of a flow graph. -/
inductive Vertex where
  | start
  | exit
  | site (ordinal : Nat)
deriving DecidableEq, Repr, Inhabited

/-- The ordinal of a vertex that is a site. -/
def Vertex.ordinal? : Vertex → Option Nat
  | .site n => some n
  | _ => none

/-- Why control passes along an edge. -/
inductive EdgeLabel where
  /-- The function is entered. -/
  | next
  /-- Control goes on. -/
  | nextLine
  /-- A condition holds. -/
  | posNext
  /-- A condition does not hold. -/
  | negNext
  /-- A case of a switch is selected. -/
  | switchCase
  /-- No case of a switch is selected. -/
  | switchExit
  /-- A loop goes on. -/
  | loopControl
  /-- A jump is taken. -/
  | jumpNext
  /-- The function is left by a `return`. -/
  | returnExit
deriving DecidableEq, Repr, Inhabited

/-- The name of an edge label. -/
def EdgeLabel.text : EdgeLabel → String
  | .next => "next"
  | .nextLine => "next_line"
  | .posNext => "pos_next"
  | .negNext => "neg_next"
  | .switchCase => "switch_case"
  | .switchExit => "switch_exit"
  | .loopControl => "loop_control"
  | .jumpNext => "jump_next"
  | .returnExit => "return_exit"

/-- A labelled edge. -/
structure Edge where
  source : Vertex
  target : Vertex
  label : EdgeLabel
deriving DecidableEq, Repr, Inhabited

/-- Edges whose target is not known yet. -/
abbrev Frontier := List (Vertex × EdgeLabel)

/-- One edge from each source of a frontier, all with one label. -/
def labelled (fr : Frontier) (label : EdgeLabel) : Frontier :=
  (fr.map (·.1)).eraseDups.map fun v => (v, label)

/-- The edges of a frontier, led to a target. -/
def leadTo (fr : Frontier) (target : Vertex) : List Edge :=
  fr.map fun d => ⟨d.1, target, d.2⟩

/-- A frontier with one label keeps its sources. -/
theorem mem_labelled {fr : Frontier} {label l : EdgeLabel} {v : Vertex} :
    (v, l) ∈ labelled fr label ↔ (∃ l', (v, l') ∈ fr) ∧ l = label := by
  simp only [labelled, List.mem_map, List.mem_eraseDups, Prod.mk.injEq, Prod.exists]
  constructor
  · rintro ⟨_, ⟨_, m, h, rfl⟩, rfl, rfl⟩
    exact ⟨⟨m, h⟩, rfl⟩
  · rintro ⟨⟨m, h⟩, rfl⟩
    exact ⟨v, ⟨v, m, h, rfl⟩, rfl, rfl⟩

/-- The edges of a frontier that is led to a target. -/
theorem mem_leadTo {fr : Frontier} {target : Vertex} {e : Edge} :
    e ∈ leadTo fr target ↔ (e.source, e.label) ∈ fr ∧ e.target = target := by
  obtain ⟨s, t, l⟩ := e
  simp only [leadTo, List.mem_map, Edge.mk.injEq, Prod.exists]
  constructor
  · rintro ⟨v, m, h, rfl, rfl, rfl⟩
    exact ⟨h, rfl⟩
  · rintro ⟨h, rfl⟩
    exact ⟨s, l, h, rfl, rfl, rfl⟩

/-- The frontier of the edge that goes on from a site. -/
def onward (ordinal : Nat) : Frontier := [(.site ordinal, .nextLine)]

/-- How sites are nested. A sequence of regions is a list. -/
inductive Region where
  | site (ordinal : Nat)
  /-- The arms of a statement, of which one is taken. -/
  | branch (stmt : Path) (arms : List (List Region))
  | loop (stmt : Path) (body : List Region)
  /-- The point where a `return` leaves the function. -/
  | ret (stmt : Path)
deriving Repr, Inhabited

end LastUse
