import LastUse.Export.Links

/-!
# Graphs in the DOT language

A graph of nodes and links as text in the DOT language. Labels stand between quotation marks; marks
and backslashes in them are escaped by a backslash, and line breaks become spaces.
-/

namespace LastUse

/-- A character inside a quoted label. -/
def dotChar (c : Char) : List Char :=
  if c = '\\' then ['\\', '\\']
  else if c = Text.doubleMark then ['\\', Text.doubleMark]
  else if c = '\n' || c = '\r' then [' ']
  else [c]

/-- A label between quotation marks. -/
def dotLabel (label : List Char) : List Char :=
  Text.doubleMark :: label.flatMap dotChar ++ [Text.doubleMark]

/-- A word that stands without quotation marks unless it holds a hyphen. -/
def dotWord (word : String) : String :=
  if word.toList.contains '-' then "\"" ++ word ++ "\"" else word

/-- The text of an attribute of a node. -/
def dotAttribute : String × Attribute → String
  | (name, .text s) =>
    name ++ "=" ++ (if name = "label" then String.ofList (dotLabel s.toList) else dotWord s)
  | (name, .flag b) => name ++ "=" ++ (Scalar.bool b).spelling

/-- The attributes of a node or a link between brackets, if there are any. -/
def dotAttributes (attributes : List String) : String :=
  if attributes.isEmpty then "" else " [" ++ Text.joined ", " attributes ++ "]"

/-- The line of a node. -/
def ShownNode.dotText (n : ShownNode) : String :=
  n.vertex.text ++ dotAttributes (n.attributes.map dotAttribute) ++ ";\n"

/-- The line of a link. -/
def Link.dotText (l : Link) : String :=
  l.source.text ++ " -> " ++ l.target.text
    ++ dotAttributes ["key=" ++ toString l.key, "label=\"" ++ l.label.text ++ "\""]
    ++ ";\n"

/-- The graph in the DOT language. -/
def LinkGraph.dotText (g : LinkGraph) : String :=
  "digraph \x7b\n" ++ String.join (g.nodes.map ShownNode.dotText)
    ++ String.join (g.links.map Link.dotText) ++ "\x7d\n"

end LastUse
