import LastUse.Flow.Site

/-!
# Drafts of flow graphs

A draft is what a piece of a function body adds to the flow graph. Drafts of consecutive pieces are
put together by `++`. A draft knows nothing of the pieces before it but the ordinal of its first
site.
-/

namespace LastUse

/-- What a piece of a function body adds to the flow graph. -/
structure Draft where
  sites : List Site := []
  edges : List Edge := []
  /-- Expressions with the ordinals of the sites that evaluate them. -/
  attached : List (Nat × Expr) := []
  /-- Places of expression nodes with the ordinals of the sites that own them. -/
  owned : List (Path × Nat) := []
  region : List Region := []
  /-- Labels with the ordinals of their sites. -/
  labels : List (String × Nat) := []
  /-- Ordinals of `goto` sites with the labels they name. -/
  gotos : List (Nat × String) := []
  /-- Edges that leave the innermost loop or switch. -/
  breaks : Frontier := []
  /-- Edges that go on with the innermost loop. -/
  continues : Frontier := []
deriving Repr, Inhabited

namespace Draft

/-- The draft of a piece followed by the draft of the next piece. -/
def append (a b : Draft) : Draft where
  sites := a.sites ++ b.sites
  edges := a.edges ++ b.edges
  attached := a.attached ++ b.attached
  owned := a.owned ++ b.owned
  region := a.region ++ b.region
  labels := a.labels ++ b.labels
  gotos := a.gotos ++ b.gotos
  breaks := a.breaks ++ b.breaks
  continues := a.continues ++ b.continues

/-- The sum of two drafts is the one behind the other. -/
instance : Append Draft := ⟨append⟩

@[simp] theorem sites_append (a b : Draft) : (a ++ b).sites = a.sites ++ b.sites := rfl

@[simp] theorem edges_append (a b : Draft) : (a ++ b).edges = a.edges ++ b.edges := rfl

@[simp] theorem attached_append (a b : Draft) : (a ++ b).attached = a.attached ++ b.attached := rfl

@[simp] theorem owned_append (a b : Draft) : (a ++ b).owned = a.owned ++ b.owned := rfl

@[simp] theorem region_append (a b : Draft) : (a ++ b).region = a.region ++ b.region := rfl

@[simp] theorem labels_append (a b : Draft) : (a ++ b).labels = a.labels ++ b.labels := rfl

@[simp] theorem gotos_append (a b : Draft) : (a ++ b).gotos = a.gotos ++ b.gotos := rfl

@[simp] theorem breaks_append (a b : Draft) : (a ++ b).breaks = a.breaks ++ b.breaks := rfl

@[simp] theorem continues_append (a b : Draft) :
    (a ++ b).continues = a.continues ++ b.continues := rfl

/-- The draft of one site, reached by the edges of a frontier. -/
def ofSite (s : Site) (fr : Frontier) : Draft where
  sites := [s]
  edges := leadTo fr (.site s.ordinal)
  region := [.site s.ordinal]

/-- The draft of further edges. -/
def ofEdges (edges : List Edge) : Draft := { edges }

/-- The draft of an expression evaluated at a site, which owns all of its nodes. -/
def ofExpr (ordinal : Nat) (e : Expr) : Draft where
  attached := [(ordinal, e)]
  owned := e.preorder.filterMap fun n => n.place?.map (·, ordinal)

/-- The draft of the expression node at a place that a site owns. -/
def ofOwned (place : Path) (ordinal : Nat) : Draft where
  owned := [(place, ordinal)]

/-- The draft with its regions as the arms of a branch. -/
def asBranch (d : Draft) (stmt : Path) (arms : List (List Region)) : Draft :=
  { d with region := [.branch stmt arms] }

/-- The draft with its regions as the body of a loop. -/
def asLoop (d : Draft) (stmt : Path) : Draft :=
  { d with region := [.loop stmt d.region] }

/-- The draft after the edges that leave the innermost loop or switch have been led on. -/
def withoutBreaks (d : Draft) : Draft := { d with breaks := [] }

/-- The draft after the edges that go on with the innermost loop have been led on. -/
def withoutContinues (d : Draft) : Draft := { d with continues := [] }

end Draft

end LastUse
