import LastUse.Command.Options
import LastUse.Command.Usage
import LastUse.Export.File
import LastUse.Text.Lines
import LastUse.Tree.Loader

/-!
# Running the command

The command reads a function from a file, may write its flow graph, and reports the last accesses
of its bindings. `Command.run` does so on any file system and tells what is to be shown.
-/

namespace LastUse

/-- How much a log record matters. -/
inductive Level where
  | debug
  | error
deriving DecidableEq, Repr, Inhabited

/-- The name of a level. -/
def Level.text : Level → String
  | .debug => "DEBUG"
  | .error => "ERROR"

/-- A text with the line breaks of every system turned into line feeds. -/
def Text.unifyBreaks : List Char → List Char
  | [] => []
  | '\r' :: '\n' :: rest => '\n' :: unifyBreaks rest
  | '\r' :: rest => '\n' :: unifyBreaks rest
  | c :: rest => c :: unifyBreaks rest

namespace Command

/-- What the command leaves behind. -/
structure Outcome where
  exitCode : Nat
  output : String
  errors : List String
  log : List (Level × String)
deriving DecidableEq, Repr, Inhabited

/-- Lines, each with its end. -/
def linesText (lines : List String) : String := String.join (lines.map (· ++ "\n"))

/-- The lines in which a text with its end is shown; there may be line breaks in it. -/
def shownLines (text : String) : List String := Text.lines (text ++ "\n")

namespace Outcome

/-- The log records, each with the first line of its message. -/
def records (o : Outcome) : List (Level × String) :=
  o.log.map fun r => (r.1, (shownLines r.2).head?.getD "")

/-- The lines that are shown beside the records: what is left of their messages, then the
errors. -/
def errorLines (o : Outcome) : List String :=
  o.log.flatMap (fun r => (shownLines r.2).drop 1) ++ o.errors.flatMap shownLines

end Outcome

/-- The outcome of a refused call. -/
def refusal (e : UsageError) : Outcome :=
  ⟨2, "", usageLines ++ [commandName ++ ": error: " ++ e.message], []⟩

/-- The outcome of a call for help. -/
def helpOutcome : Outcome := ⟨0, linesText helpLines, [], []⟩

/-- The outcome when the document or its function is refused. -/
def malformedOutcome (m : Malformation) : Outcome :=
  ⟨2, "", ["error: " ++ m.message], [(.error, m.message)]⟩

/-- The outcome when a file cannot be opened. A path that no file can have is a fault. -/
def fileOutcome (path : String) : FileError → Except Fault Outcome
  | .nullCharacter => .error .unusable
  | e => .ok ⟨1, "", ["error: " ++ e.message path], []⟩

mutual

/-- A value as a document; nodes have none. -/
def plainJson : Value → Except Fault Json
  | .scalar s => .ok (.scalar s)
  | .list items => do
    let items ← plainJsons items
    pure (.arr items)
  | .node _ _ => .error .mistyped

/-- Several values as documents. -/
def plainJsons : List Value → Except Fault (List Json)
  | [] => .ok []
  | v :: rest => do
    let j ← plainJson v
    let js ← plainJsons rest
    pure (j :: js)

end

/-- The name of a member that a binding has in a document. -/
def memberOf : Value → Except Fault String
  | .scalar s => .ok (Json.memberName s)
  | _ => .error .mistyped

/-- An entry of a report as a document. -/
def entryJson (e : ReportEntry) : Json :=
  .obj [("accesses", Json.nats e.accesses), ("poisoned", Json.nats e.poisoned),
    ("last_access", .arr (e.movable.map fun hit =>
      .obj [("site", .nat hit.1), ("label", .str hit.2)]))]

/-- The members of a report in a document. -/
def entryMembers : List ReportEntry → Except Fault (List (String × Json))
  | [] => .ok []
  | e :: rest => do
    let name ← memberOf e.binding.name
    let members ← entryMembers rest
    pure ((name, entryJson e) :: members)

/-- A report as a document. -/
def reportJson (function : Value) (entries : List ReportEntry) : Except Fault Json := do
  let function ← plainJson function
  let members ← entryMembers entries
  pure (.obj [("function", function), ("bindings", .obj members)])

/-- The lines of an entry of a report. -/
def entryLines (e : ReportEntry) : List String :=
  match e.movable with
  | [] => ["  " ++ e.binding.name.plain ++ ": no provable last access"]
  | hits =>
    hits.map fun hit =>
      "  " ++ e.binding.name.plain ++ ": site " ++ toString hit.1 ++ "  " ++ hit.2

/-- The lines of a report. -/
def reportLines (function : Value) (entries : List ReportEntry) : List String :=
  ("function " ++ function.plain) :: entries.flatMap entryLines

/-- The name of a function. -/
def functionName : Value → Value
  | .node .function (name :: _) => name
  | _ => .null

/-- A report in the form that the options ask for. -/
def reportText (o : Options) (function : Value) (entries : List ReportEntry) :
    Except Fault String :=
  if o.json then do
    let j ← reportJson function entries
    pure (Json.text .indented j ++ "\n")
  else .ok (linesText (reportLines function entries))

/-- The settings that the options stand for. -/
def settingsOf (o : Options) : Json :=
  .obj [(Settings.analysisSection, .obj [(Settings.reachabilityKey, .bool o.reachability)])]

/-- The session that the options and the text of a file open. -/
def openSession (o : Options) (text : String) : Except Fault Session := do
  let tree ← Value.ofText (String.ofList (Text.unifyBreaks text.toList))
  Session.ofTree (settingsOf o) tree

/-- The binding that an option names; one left out has the name of the empty list. -/
def chosenBinding (name : Option String) : Binding :=
  .ofValue ((name.map Value.str).getD (.list []))

/-- The outcome of a report about a session. -/
def reportOutcome (o : Options) (s : Session) : Except Fault Outcome :=
  let (result, memory) := (s.report (o.bindings.map (·.map chosenBinding))).run.run .empty
  match result with
  | .error f => .error f
  | .ok entries => do
    let text ← reportText o (functionName s.tree) entries
    let log := if o.verbose then memory.log.map (Level.debug, ·) else []
    pure ⟨0, text, [], log⟩

/-- The formats in which the options ask for the flow graph. -/
def formatsOf (o : Options) : List GraphFormat :=
  if o.output.getD "" = "" then [] else GraphFormat.ofChoice (o.format.getD "")

/-- Runs the command with options on a file system. Faults other than malformations are left to the
caller. -/
def execute {m : Type → Type} [Monad m] (disk : Disk m) (o : Options) (file : String) :
    m (Except Fault Outcome) := do
  match ← disk.read file with
  | .error e => pure (fileOutcome file e)
  | .ok text =>
    match openSession o text with
    | .error (.malformed cause) => pure (.ok (malformedOutcome cause))
    | .error f => pure (.error f)
    | .ok s =>
      match ← writeFiles disk s.graph.links (o.output.getD "") (formatsOf o) with
      | .error (path, e) => pure (fileOutcome path e)
      | .ok () => pure (reportOutcome o s)

/-- Runs the command with arguments on a file system. -/
def run {m : Type → Type} [Monad m] (disk : Disk m) (arguments : List String) :
    m (Except Fault Outcome) :=
  match readArguments arguments with
  | .help => pure (.ok helpOutcome)
  | .refused e => pure (.ok (refusal e))
  | .ready o => execute disk o (o.file.getD "")

end Command

end LastUse
