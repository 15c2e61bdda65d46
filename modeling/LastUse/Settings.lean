import LastUse.Fault
import LastUse.Json.Writer
import LastUse.Tree.Value

/-!
# Settings

Settings come as a document of sections. `Settings.ofJson` lays them over the defaults. A section
may be an object or, as a list, pairs of a key and a value; what it does not set keeps its default.
Keys are scalars, and a number is one key in all of its forms.
-/

namespace LastUse

/-- A section of settings, by keys in the order in which they were first set. -/
abbrev Section := List (Scalar × Json)

/-- Sections of settings. -/
structure Settings where
  sections : List (String × Section)
deriving Repr, Inhabited

namespace Settings

/-- The section of the flow graph. -/
def graphSection : String := "CFG"

/-- The section of the analysis. -/
def analysisSection : String := "LastAccess"

/-- The setting for edges to the exit. -/
def exitEdgesKey : String := "exit_edges"

/-- The setting for the precise treatment of jumps. -/
def reachabilityKey : String := "goto_reachability"

/-- The setting for sites that reset a binding besides moves. -/
def extraResetsKey : String := "extra_resets"

/-- The settings where nothing is set. -/
def defaults : Settings :=
  ⟨[(graphSection, [(.str exitEdgesKey, .bool true), (.str "output_png", .bool false)]),
    (analysisSection, [(.str reachabilityKey, .bool true), (.str extraResetsKey, .obj [])])]⟩

/-- The two items of a pair: of a list, of a text or of an object, whose items are its names. -/
def pairOf : Json → Except Fault (Json × Json)
  | .arr [a, b] => .ok (a, b)
  | .obj [(a, _), (b, _)] => .ok (.str a, .str b)
  | .scalar (.str s) =>
    match s.toList with
    | [a, b] => .ok (.str a.toString, .str b.toString)
    | _ => .error .unusable
  | .scalar _ => .error .mistyped
  | _ => .error .unusable

/-- The section that pairs make up. -/
def sectionOfPairs : List Json → Except Fault Section
  | [] => .ok []
  | j :: rest => do
    let (key, value) ← pairOf j
    match key with
    | .scalar key =>
      let others ← sectionOfPairs rest
      pure ((key, value) :: others)
    | _ => .error .mistyped

/-- What a document sets in a section. -/
def sectionOfJson : Json → Except Fault Section
  | .obj members => .ok (members.map fun m => (.str m.1, m.2))
  | .arr items => sectionOfPairs items
  | .scalar (.str s) => if s.isEmpty then .ok [] else .error .unusable
  | .scalar _ => .error .mistyped

/-- The section with a key set: an old one keeps its place and its form, a new one comes last. -/
def setKey (key : Scalar) (value : Json) : Section → Section
  | [] => [(key, value)]
  | (k, v) :: rest => if k.sameKey key then (k, value) :: rest else (k, v) :: setKey key value rest

/-- A section laid over another. -/
def lay (members changes : Section) : Section :=
  changes.foldl (fun ms m => setKey m.1 m.2 ms) members

/-- Sections with changes laid over one of them; a new one comes last. -/
def layOver (name : String) (changes : Section) :
    List (String × Section) → List (String × Section) :=
  alterEntry name fun members => lay (members.getD []) changes

/-- The sections of a document laid over others. -/
def laySections (sections : List (String × Section)) :
    List (String × Json) → Except Fault (List (String × Section))
  | [] => .ok sections
  | (name, values) :: rest => do
    let changes ← sectionOfJson values
    laySections (layOver name changes sections) rest

/-- A document of sections laid over the defaults; a document that counts as false sets nothing. -/
def ofJson (document : Json) : Except Fault Settings :=
  if !document.truthy then .ok defaults
  else
    match document with
    | .obj members => do
      let sections ← laySections defaults.sections members
      pure ⟨sections⟩
    | _ => .error .partless

/-- A section as a document. -/
def sectionJson (members : Section) : Json :=
  .obj (members.map fun m => (Json.memberName m.1, m.2))

/-- The settings as a document. -/
def toJson (s : Settings) : Json := .obj (s.sections.map fun p => (p.1, sectionJson p.2))

/-- The value of a setting. -/
def get? (s : Settings) (sectionName key : String) : Option Json :=
  (s.sections.lookup sectionName).bind fun members => members.lookup (.str key)

/-- A switch in a section that is given as a document; it is on where it is not set. -/
def switchIn (document : Json) (key : String) : Except Fault Bool :=
  if !document.truthy then .ok true
  else
    match document with
    | .obj members => .ok ((members.lookup key).map Json.truthy |>.getD true)
    | _ => .error .partless

/-- A section of a document of sections. -/
def sectionOf (document : Json) (name : String) : Except Fault Json :=
  if !document.truthy then .ok .null
  else
    match document with
    | .obj members => .ok ((members.lookup name).getD .null)
    | _ => .error .partless

/-- Whether edges to the exit are drafted. -/
def exitEdges (s : Settings) : Bool :=
  ((s.get? graphSection exitEdgesKey).map Json.truthy).getD true

/-- Whether only sites from which control can get to a jump count as run again by it. -/
def precise (s : Settings) : Bool :=
  ((s.get? analysisSection reachabilityKey).map Json.truthy).getD true

/-- The ordinals among listed values. The characters of a text and the names of an object are
none. -/
def ordinalsOf : Json → Except Fault (List Nat)
  | .arr items => do
    let ordinals ← items.mapM fun
      | .scalar s => Except.ok s.ordinal?
      | _ => Except.error .mistyped
    pure (ordinals.filterMap id)
  | .obj _ => .ok []
  | .scalar (.str _) => .ok []
  | .scalar _ => .error .mistyped

/-- The sites that reset the binding with a name besides moves. -/
def extraResets (s : Settings) (name : Value) : Except Fault (List Nat) :=
  match s.get? analysisSection extraResetsKey with
  | some (.obj members) =>
    match name with
    | .scalar (.str n) => ((members.lookup n).map ordinalsOf).getD (.ok [])
    | _ => .ok []
  | some _ => .error .partless
  | none => .ok []

end Settings

end LastUse
