import LastUse.Fault
import LastUse.Tree.Value

/-!
# Bindings

A binding is a parameter or a local of a function. `Value.bindings` finds those of a function: the
parameters first, then the locals in the order of their declarations. Names are told apart like
keys, and names that are nodes by their places.
-/

namespace LastUse

/-- A parameter or a local. -/
structure Binding where
  name : Value
  isParameter : Bool
  /-- Where the name stands in the tree of the function, if it was found there. -/
  place : Option Path := none
deriving Repr, Inhabited

namespace Binding

/-- The binding that a value names. -/
def ofValue (v : Value) : Binding := { name := .str v.plain, isParameter := false }

/-- Whether two bindings have one name. -/
def sameName (a b : Binding) : Bool :=
  match a.name, b.name with
  | .scalar s, .scalar t => s.sameKey t
  | .node .., .node .. => a.place = b.place
  | _, _ => false

end Binding

namespace Value

/-- The binding that a statement at a place declares, if it declares one. -/
def declaredName? (p : Path) : Kind → List Value → Option Binding
  | .decl, name :: _ => some ⟨name, false, p.field "name"⟩
  | .foreach, var :: _ => some ⟨var, false, p.field "var"⟩
  | _, _ => none

mutual

/-- The bindings that a statement at a place and the statements among its parts declare, in
order. -/
def declared (p : Path) : Value → Except Fault (List Binding)
  | .node k fields =>
    if k.isStmt then do
      let inner ← declaredFields p k.fields fields
      pure ((declaredName? p k fields).toList ++ inner)
    else .ok []
  | _ => .ok []

/-- The bindings declared in the fields of a statement. -/
def declaredFields (p : Path) : List FieldDecl → List Value → Except Fault (List Binding)
  | f :: fs, v :: rest => do
    let here ←
      match f.type.role, v with
      | .data, _ => .ok []
      | .part, v => declared (p.field f.name) v
      | .parts, .list items => declaredItems (p.field f.name) 0 items
      | .parts, .scalar (.str _) => .ok []
      | .parts, _ => .error .mistyped
    let there ← declaredFields p fs rest
    pure (here ++ there)
  | _, _ => .ok []

/-- The bindings declared in the items of a list, from an index on. -/
def declaredItems (p : Path) (i : Nat) : List Value → Except Fault (List Binding)
  | [] => .ok []
  | v :: rest => do
    let here ← declared (p.item i) v
    let there ← declaredItems p (i + 1) rest
    pure (here ++ there)

end

/-- The bindings whose names are not null and not among those seen, each once. -/
def newBindings (seen : List Binding) : List Binding → Except Fault (List Binding)
  | [] => .ok []
  | b :: rest =>
    match b.name with
    | .scalar .null => newBindings seen rest
    | name =>
      if !name.isKey then .error .mistyped
      else if seen.any b.sameName then newBindings seen rest
      else do
        let new ← newBindings (b :: seen) rest
        pure (b :: new)

/-- The parameters that values name, where these are the items at a place. -/
def parameters (p : Path) (names : List Value) : List Binding :=
  names.zipIdx.map fun n => ⟨n.1, true, p.item n.2⟩

/-- The bindings of a function. -/
def bindings : Value → Except Fault (List Binding)
  | .node .function [_, params, body] =>
    match params.items? with
    | none => .error .mistyped
    | some names => do
      if names.any fun v => !v.isKey then .error .mistyped
      let params := parameters (Path.root.field "params") names
      let all ← declared (Path.root.field "body") body
      let locals ← newBindings params all
      pure (params ++ locals)
  | _ => .error .partless

end Value

end LastUse
