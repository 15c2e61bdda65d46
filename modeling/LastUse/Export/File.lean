import LastUse.Disk
import LastUse.Export.Dot
import LastUse.Json.Writer

/-!
# Graph files

Graphs are written next to a path, as JSON, in the DOT language, or both: the extension of the path
is replaced by that of the format.
-/

namespace LastUse

/-- The formats of graph files. -/
inductive GraphFormat where
  | json
  | dot
deriving DecidableEq, Repr, Inhabited

namespace GraphFormat

/-- The extension of the files. -/
def extension : GraphFormat → String
  | .json => ".json"
  | .dot => ".dot"

/-- The formats that a choice stands for, in the order in which they are written. -/
def ofChoice (choice : String) : List GraphFormat :=
  if choice = "all" then [.json, .dot]
  else if choice = "json" then [.json]
  else if choice = "dot" then [.dot]
  else []

/-- A graph in a format. -/
def content (g : LinkGraph) : GraphFormat → String
  | .json => Json.text .spaced g.toJson
  | .dot => g.dotText

end GraphFormat

/-- A path without its extension: what stands before the last point of the file's name, unless only
points stand before that one. -/
def pathStem (path : String) : String :=
  let reversed := path.toList.reverse
  let name := (reversed.takeWhile (· ≠ '/')).reverse
  let folder := (reversed.dropWhile (· ≠ '/')).reverse
  let stem := ((name.reverse.dropWhile (· ≠ '.')).drop 1).reverse
  if stem.any (· ≠ '.') then String.ofList (folder ++ stem) else path

/-- The name of a graph file. -/
def graphFile (path : String) (format : GraphFormat) : String := pathStem path ++ format.extension

/-- Writes a graph in some formats; the first file that cannot be opened ends it. -/
def writeFiles {m : Type → Type} [Monad m] (disk : Disk m) (g : LinkGraph) (path : String) :
    List GraphFormat → m (Except (String × FileError) Unit)
  | [] => pure (.ok ())
  | format :: rest => do
    match ← disk.write (graphFile path format) (GraphFormat.content g format) with
    | .error e => pure (.error (graphFile path format, e))
    | .ok () => writeFiles disk g path rest

end LastUse
