import LastUse.Escape
import LastUse.Verdict
import LastUse.Settings

/-!
# Sessions

A session answers queries about the bindings of one function. The first query about a name analyses
it; later ones read what is remembered. The sites that jumps can run again are found once, when the
first query needs them. A query that fails leaves what was remembered before it.
-/

namespace LastUse

/-- What is known of a binding. -/
structure Analysis where
  scan : Scan
  escape : Escape
  verdict : Verdict
deriving Repr, Inhabited

namespace Analysis

/-- The binding that was analysed. -/
def binding (a : Analysis) : Binding := a.scan.binding

/-- The last accesses at which the binding is not poisoned: there it may be moved. -/
def eligible (a : Analysis) : List Nat := a.verdict.sites.filter fun o => !a.escape.poisonedAt o

end Analysis

/-- A function and the settings for its analyses. -/
structure Session where
  tree : Value
  graph : FlowGraph
  settings : Settings
deriving Repr, Inhabited

/-- What a session remembers: the analyses made so far, in order, and the notes on them. -/
structure Memory where
  analyses : List Analysis
  log : List String
  /-- The sites that jumps can run again, once they were needed. -/
  repeated : Option (List Nat)
deriving Repr, Inhabited

/-- The memory of a session before its first query. -/
def Memory.empty : Memory := ⟨[], [], none⟩

/-- The analysis of the name that a binding has. -/
def Memory.find? (m : Memory) (b : Binding) : Option Analysis :=
  m.analyses.find? fun a => a.binding.sameName b

/-- The names analysed so far. -/
def Memory.names (m : Memory) : List Value := m.analyses.map fun a => a.binding.name

/-- A query, which may add to the memory and may fail. -/
abbrev Query := ExceptT Fault (StateM Memory)

/-- What a query can ask about. -/
inductive Target where
  /-- The node at a place of the function. -/
  | node (place : Path) (tree : Value)
  /-- A node of no function. -/
  | foreign (tree : Value)
  /-- A site, which counts as its ordinal. -/
  | site (ordinal : Nat)
  /-- Any other value; a whole number is an ordinal. -/
  | value (document : Json)
deriving Repr, Inhabited

/-- A binding in a report. -/
structure ReportEntry where
  binding : Binding
  accesses : List Nat
  poisoned : List Nat
  /-- The sites where the binding may be moved, with their labels. -/
  movable : List (Nat × String)
deriving Repr, Inhabited

namespace Session

/-- A session about a function, with settings laid over the defaults. -/
def ofTree (settings : Json) (tree : Value) : Except Fault Session := do
  let settings ← Settings.ofJson settings
  let graph ← FlowGraph.ofTree (.ok settings.exitEdges) tree
  pure ⟨tree, graph, settings⟩

/-- The sites that jumps can run again. -/
def repeated (s : Session) : List Nat := s.graph.repeated s.settings.precise

/-- The sites that jumps can run again, remembered from the first time on. -/
def repeatedSites (s : Session) : Query (List Nat) := do
  let memory ← get
  match memory.repeated with
  | some ordinals => pure ordinals
  | none =>
    set { memory with repeated := some s.repeated }
    pure s.repeated

/-- The analysis of a binding and the notes on it, where jumps can run the sites of `repeated`
again. -/
def analysisWith (s : Session) (repeated : List Nat) (b : Binding) :
    Except Fault (Analysis × List Note) := do
  let scan := s.graph.scan b
  let resets ← s.settings.extraResets b.name
  let escape := s.graph.escape scan resets
  let verdict := s.graph.verdict scan repeated
  let taken :=
    if escape.isAddressTaken then [.addressTaken escape.poisonPoints escape.resetPoints] else []
  pure (⟨scan, escape, verdict⟩, escape.notes ++ verdict.notes ++ taken)

/-- The analysis of a binding, made afresh, and the notes on it. -/
def analysisOf (s : Session) (b : Binding) : Except Fault (Analysis × List Note) :=
  s.analysisWith s.repeated b

/-- The analysis of a binding, remembered from the first time on. -/
def analysis (s : Session) (b : Binding) : Query Analysis := do
  if !b.name.isKey then throw .mistyped
  let memory ← get
  match memory.find? b with
  | some a => pure a
  | none =>
    let repeated := memory.repeated.getD s.repeated
    match s.analysisWith repeated b with
    | .error f => throw f
    | .ok (a, notes) =>
      set (Memory.mk (memory.analyses ++ [a]) (memory.log ++ notes.map (Note.message b.name))
        repeated)
      pure a

/-- The sites where a binding may be moved. -/
def movableSites (s : Session) (b : Binding) : Query (List Nat) := do
  let a ← s.analysis b
  pure a.eligible

/-- The bindings of the function. -/
def bindings (s : Session) : Except Fault (List Binding) := s.tree.bindings

/-- The site with an ordinal, if the function has one. -/
def locateOrdinal (s : Session) (n : Int) : Except Fault (List Nat) :=
  if 0 ≤ n && n < s.graph.sites.length then .ok [n.toNat]
  else .error (.unknownSite (Scalar.int n).spelling)

/-- The sites that a target names. -/
def locate (s : Session) : Target → Except Fault (List Nat)
  | .site o => s.locateOrdinal o
  | .node p tree =>
    match s.graph.sitesAt p with
    | [] => .error (.unknownSite tree.spelling)
    | ordinals => .ok ordinals
  | .foreign tree => .error (.unknownSite tree.spelling)
  | .value (.scalar (.int n)) => s.locateOrdinal n
  | .value document => .error (.unknownSite document.spelling)

/-- The sites of a target that is a node; there are none of anything else. -/
def nodeSites (s : Session) : Target → Except Fault (List Nat)
  | .node p _ => .ok (s.graph.sitesAt p)
  | .foreign _ | .site _ | .value (.scalar _) => .ok []
  | .value _ => .error .mistyped

/-- The site at the position that a document gives; a truth value counts as zero or one. -/
def siteAt (s : Session) : Json → Except Fault Site
  | .scalar (.int n) => s.graph.siteAt n
  | .scalar (.bool b) => s.graph.siteAt (if b then 1 else 0)
  | _ => .error .mistyped

/-- Whether a binding may be moved at one of the sites that a target names. -/
def isMovableAt (s : Session) (b : Binding) (t : Target) : Query Bool := do
  let ordinals ← ExceptT.mk (pure (s.locate t))
  let eligible ← s.movableSites b
  pure (ordinals.any eligible.contains)

/-- The entry of a report about an analysis. -/
def entryOf (s : Session) (b : Binding) (a : Analysis) : ReportEntry where
  binding := b
  accesses := a.scan.accessing
  poisoned := a.escape.poisoned
  movable := a.eligible.map fun o => (o, (s.graph.sites[o]?.map (·.label)).getD "")

/-- The entries of a report about bindings, after entries that are there already. A name has one
entry. -/
def reportFrom (s : Session) (entries : List ReportEntry) : List Binding → Query (List ReportEntry)
  | [] => pure entries
  | b :: rest => do
    let a ← s.analysis b
    let entries :=
      if entries.any fun e => e.binding.sameName b then entries
      else entries ++ [s.entryOf b a]
    s.reportFrom entries rest

/-- A report about some bindings, or about all bindings of the function. -/
def report (s : Session) (chosen : Option (List Binding)) : Query (List ReportEntry) := do
  match chosen with
  | some bs => s.reportFrom [] bs
  | none =>
    let bs ← ExceptT.mk (pure s.bindings)
    s.reportFrom [] bs

end Session

end LastUse
