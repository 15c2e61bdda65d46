import LastUse.Fault
import LastUse.Json.Reader
import LastUse.Tree.Value

/-!
# Loading a tree from a document

In a document a node is an object with a `type` member that holds the tag of its kind; its other
members are the fields. `Value.ofJson` turns a document into a tree or tells the first fault it
meets: of an object first its type, then its declared fields in order, then members that are no
fields. `Value.dump` writes a tree back with every field.
-/

namespace LastUse

namespace Value

/-- The member that holds the tag of a node's kind. -/
def typeKey : String := "type"

/-- The kind that the members of an object name. -/
def kindOf (p : Path) (members : List (String × Json)) : Except Fault Kind :=
  match members.lookup typeKey with
  | none => .error (.malformed (.notANode p))
  | some (.scalar (.str tag)) =>
    match Kind.ofTag? tag with
    | some k => .ok k
    | none => .error (.malformed (.unknownType p (.str tag)))
  | some (.scalar t) => .error (.malformed (.unknownType p t))
  | some _ => .error .mistyped

/-- The values of declared fields, taken from loaded members. -/
def gather (p : Path) (k : Kind) (loaded : List (String × Except Fault Value)) :
    List FieldDecl → Except Fault (List Value)
  | [] => .ok []
  | f :: rest => do
    let v ← match loaded.lookup f.name, f.default with
      | some v, _ => v
      | none, some v => .ok v
      | none, none => .error (.malformed (.missingField p k f.name))
    let vs ← gather p k loaded rest
    pure (v :: vs)

/-- The names of the members that are neither the type nor a field of the kind, in order. -/
def strayNames (k : Kind) (names : List String) : List String :=
  (names.filter fun n => n ≠ typeKey && (k.fields.all fun f => f.name ≠ n)).mergeSort
    fun a b => !decide (b < a)

/-- The node that an object's loaded members make up. -/
def assemble (p : Path) (members : List (String × Json))
    (loaded : List (String × Except Fault Value)) : Except Fault Value := do
  let k ← kindOf p members
  let fields ← gather p k loaded k.fields
  match strayNames k (members.map (·.1)) with
  | [] => pure (.node k fields)
  | stray => .error (.malformed (.unknownFields p k stray))

mutual

/-- The value of a document at a place; objects are nodes. -/
def load (p : Path) : Json → Except Fault Value
  | .scalar s => .ok (.scalar s)
  | .arr items => do
    let vs ← loadItems p 0 items
    pure (.list vs)
  | .obj members => assemble p members (loadMembers p members)

/-- The values of the items of an array, from an index on. -/
def loadItems (p : Path) (i : Nat) : List Json → Except Fault (List Value)
  | [] => .ok []
  | j :: rest => do
    let v ← load (p.item i) j
    let vs ← loadItems p (i + 1) rest
    pure (v :: vs)

/-- What the members of an object load to, each on its own. -/
def loadMembers (p : Path) : List (String × Json) → List (String × Except Fault Value)
  | [] => []
  | (k, j) :: rest => (k, load (p.field k) j) :: loadMembers p rest

end

/-- The tree of a document, whose root is an object. -/
def ofJson : Json → Except Fault Value
  | .obj members => load .root (.obj members)
  | _ => .error (.malformed (.notANode .root))

/-- The tree of a document that holds a function. -/
def functionOfJson (j : Json) : Except Fault Value := do
  match ← ofJson j with
  | .node .function fields => pure (.node .function fields)
  | .node k _ => .error (.malformed (.otherRoot k))
  | _ => .error (.malformed (.notANode .root))

/-- The function that a text holds. -/
def ofText (text : String) : Except Fault Value :=
  match Json.read text.toList with
  | .ok j => functionOfJson j
  | .error (.illFormed complaint position) =>
    .error (.malformed (.notJson (Json.complaintMessage text.toList complaint position)))
  | .error .tooManyDigits => .error .unusable

mutual

/-- The document of a tree, with every field of every node. -/
def dump : Value → Json
  | .scalar s => .scalar s
  | .list items => .arr (dumpItems items)
  | .node k fields => .obj ((typeKey, .str k.tag) :: dumpFields k.fields fields)

/-- The documents of the items of a list. -/
def dumpItems : List Value → List Json
  | [] => []
  | v :: rest => v.dump :: dumpItems rest

/-- The members for the fields of a node. -/
def dumpFields : List FieldDecl → List Value → List (String × Json)
  | f :: fs, v :: rest => (f.name, v.dump) :: dumpFields fs rest
  | _, _ => []

end

end Value

end LastUse
