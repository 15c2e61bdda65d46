import LastUse.Text.Digit
import LastUse.Text.Quoted

/-!
# Command-line options

The options of the command and how arguments are read. An option that takes a value takes it from
the same argument, behind an equals sign or directly behind a short name, or from the next
argument. Short names may be put together where all but the last are of options without values. A
long name may be cut short where that is unambiguous. Two hyphens alone end the options, and as the
value of an option they leave its value out.
-/

namespace LastUse.Command

/-- What an option sets. -/
inductive Flag where
  | help
  | binding
  | json
  | output
  | format
  | noReachability
  | verbose
deriving DecidableEq, Repr, Inhabited

namespace Flag

/-- All options, in the order in which they are listed. -/
def all : List Flag := [.help, .binding, .json, .output, .format, .noReachability, .verbose]

/-- The names of an option. -/
def names : Flag → List String
  | .help => ["-h", "--help"]
  | .binding => ["--binding", "-b"]
  | .json => ["--json"]
  | .output => ["--output", "-o"]
  | .format => ["--format"]
  | .noReachability => ["--no-reachability"]
  | .verbose => ["--verbose", "-v"]

/-- Whether an option takes a value. -/
def takesValue : Flag → Bool
  | .binding | .output | .format => true
  | _ => false

/-- The option with a name. -/
def ofName? (name : String) : Option Flag := all.find? fun f => f.names.contains name

/-- All names with their options. -/
def named : List (String × Flag) := all.flatMap fun f => f.names.map (·, f)

end Flag

/-- The formats that may be chosen. -/
def formatChoices : List String := ["json", "dot", "all"]

/-- Why arguments are refused. -/
inductive UsageError where
  | ambiguous (argument : String) (names : List String)
  | missingValue (option : Flag)
  | ignoredValue (option : Flag) (value : String)
  | invalidChoice (option : Flag) (value : String)
  | missingFile
  | unrecognized (arguments : List String)
deriving DecidableEq, Repr, Inhabited

/-- The wording of what is wrong with an option. -/
def aboutOption (option : Flag) (complaint : String) : String :=
  "argument " ++ Text.joined "/" option.names ++ ": " ++ complaint

/-- The wording of a usage error. -/
def UsageError.message : UsageError → String
  | .ambiguous argument names =>
    "ambiguous option: " ++ argument ++ " could match " ++ Text.joined ", " names
  | .missingValue option => aboutOption option "expected one argument"
  | .ignoredValue option value =>
    aboutOption option ("ignored explicit argument " ++ Text.quoted value)
  | .invalidChoice option value =>
    aboutOption option ("invalid choice: " ++ Text.quoted value ++ " (choose from "
      ++ Text.joined ", " (formatChoices.map Text.quoted) ++ ")")
  | .missingFile => "the following arguments are required: file"
  | .unrecognized arguments => "unrecognized arguments: " ++ Text.joined " " arguments

/-- What an argument is. -/
inductive Token where
  /-- A value or the file. -/
  | plain
  /-- The two hyphens that end the options. -/
  | separator
  /-- An option by one of its names, perhaps with a text behind it. -/
  | option (flag : Flag) (name : String) (behind : Option String)
  /-- Something that looks like an option and is none. -/
  | unknown
deriving DecidableEq, Repr, Inhabited

/-- What stands before and behind the first equals sign. -/
def splitEquals (argument : List Char) : List Char × Option (List Char) :=
  match argument.dropWhile (· ≠ '=') with
  | _ :: value => (argument.takeWhile (· ≠ '='), some value)
  | [] => (argument, none)

/-- A text without the line feed at its end, if one stands there. -/
def withoutFinalBreak (text : List Char) : List Char :=
  if text.getLast? = some '\n' then text.dropLast else text

/-- Whether an argument is a negative number, perhaps with a line feed behind it. -/
def isNegativeNumber (argument : List Char) : Bool :=
  match withoutFinalBreak argument with
  | '-' :: rest =>
    let whole := rest.takeWhile Text.isDigit
    match rest.dropWhile Text.isDigit with
    | [] => !whole.isEmpty
    | '.' :: fraction => !fraction.isEmpty && fraction.all Text.isDigit
    | _ => false
  | _ => false

/-- The options that an argument may stand for: by a long name cut short, or by a short name with a
text directly behind it. -/
def candidates (argument : List Char) : List (Flag × String × Option String) :=
  match argument with
  | '-' :: '-' :: _ =>
    let (start, value) := splitEquals argument
    (Flag.named.filter fun n => start.isPrefixOf n.1.toList).map fun n =>
      (n.2, n.1, value.map String.ofList)
  | '-' :: c :: rest =>
    (Flag.named.filter fun n => n.1.toList = ['-', c]).map fun n =>
      (n.2, n.1, some (String.ofList rest))
  | _ => []

/-- What an argument before the separator is. -/
def classify (argument : String) : Except UsageError Token :=
  let cs := argument.toList
  if cs.head? ≠ some '-' then .ok .plain
  else
    match Flag.ofName? argument with
    | some flag => .ok (.option flag argument none)
    | none =>
      if cs.length = 1 then .ok .plain
      else
        let (name, value) := splitEquals cs
        match value, Flag.ofName? (String.ofList name) with
        | some value, some flag =>
          .ok (.option flag (String.ofList name) (some (String.ofList value)))
        | _, _ =>
          match candidates cs with
          | [(flag, name, behind)] => .ok (.option flag name behind)
          | [] => .ok (if isNegativeNumber cs || cs.contains ' ' then .plain else .unknown)
          | several => .error (.ambiguous argument (several.map fun c => c.2.1))

/-- What the arguments are; behind the separator all are plain. -/
def classifyAll : List String → Except UsageError (List (String × Token))
  | [] => .ok []
  | argument :: rest =>
    if argument = "--" then .ok ((argument, .separator) :: rest.map (·, .plain))
    else do
      let token ← classify argument
      let tokens ← classifyAll rest
      pure ((argument, token) :: tokens)

/-- The options given, and the file. -/
structure Options where
  file : Option String
  /-- The bindings asked for, if any; a name may be left out. -/
  bindings : Option (List (Option String))
  json : Bool
  output : Option String
  /-- The format chosen, unless it is left out. -/
  format : Option String
  reachability : Bool
  verbose : Bool
deriving DecidableEq, Repr, Inhabited

/-- The options where none is given. -/
def Options.initial : Options := ⟨none, none, false, none, some "dot", true, false⟩

/-- The outcome of reading arguments. -/
inductive Reading where
  /-- The help is asked for. -/
  | help
  | refused (error : UsageError)
  | ready (options : Options)
deriving DecidableEq, Repr, Inhabited

/-- An option that was read, with its value unless it has none or that is left out. -/
structure Given where
  flag : Flag
  value : Option String
deriving DecidableEq, Repr, Inhabited

/-- An option with the text of its value; two hyphens alone leave the value out. -/
def Given.ofText (flag : Flag) (text : String) : Given :=
  ⟨flag, if text = "--" then none else some text⟩

/-- What an argument with options in it gives: some options, then perhaps one whose value is the
next argument. -/
structure Bundle where
  given : List Given
  awaiting : Option Flag
deriving DecidableEq, Repr, Inhabited

/-- An option with no text behind its name. -/
def Bundle.ofFlag (flag : Flag) : Bundle :=
  if flag.takesValue then ⟨[], some flag⟩ else ⟨[⟨flag, none⟩], none⟩

/-- The options in an argument, from one of them and the text behind its name. That text is the
value of an option that takes one; behind a short name of any other option it starts with the
letter of the next option. -/
def unbundle (flag : Flag) (isLong : Bool) : List Char → Except UsageError Bundle
  | [] => if flag.takesValue then .ok ⟨[⟨flag, some ""⟩], none⟩ else .error (.ignoredValue flag "")
  | c :: rest =>
    let text := String.ofList (c :: rest)
    if flag.takesValue then .ok ⟨[.ofText flag text], none⟩
    else if isLong then .error (.ignoredValue flag text)
    else
      match Flag.ofName? (String.ofList ['-', c]) with
      | none => .error (.ignoredValue flag text)
      | some next => do
        let bundle ← if rest.isEmpty then .ok (.ofFlag next) else unbundle next false rest
        pure { bundle with given := ⟨flag, none⟩ :: bundle.given }

/-- The options in an argument that names one. -/
def bundleOf (flag : Flag) (name : String) : Option String → Except UsageError Bundle
  | none => .ok (.ofFlag flag)
  | some behind => unbundle flag (name.startsWith "--") behind.toList

/-- Takes an option up; the help ends the reading. -/
def take (o : Options) (g : Given) : Except Reading Options :=
  match g.flag with
  | .help => .error .help
  | .binding => .ok { o with bindings := some (o.bindings.getD [] ++ [g.value]) }
  | .json => .ok { o with json := true }
  | .output => .ok { o with output := g.value }
  | .format =>
    match g.value.filter fun choice => !formatChoices.contains choice with
    | some choice => .error (.refused (.invalidChoice .format choice))
    | none => .ok { o with format := g.value }
  | .noReachability => .ok { o with reachability := false }
  | .verbose => .ok { o with verbose := true }

/-- Takes several options up, in order. -/
def takeAll (o : Options) : List Given → Except Reading Options
  | [] => .ok o
  | g :: rest => do
    let o ← take o g
    takeAll o rest

/-- Turns a usage error into the outcome of the reading. -/
def refuse {α : Type} : Except UsageError α → Except Reading α
  | .ok a => .ok a
  | .error e => .error (.refused e)

/-- Reads classified arguments: options with their values, the file, and what is left over. -/
def readTokens :
    List (String × Token) → Options → List String → Except Reading (Options × List String)
  | [], o, extras => .ok (o, extras)
  | (argument, .plain) :: rest, o, extras =>
    match o.file with
    | some _ => readTokens rest o (extras ++ [argument])
    | none =>
      let o := { o with file := some argument }
      match rest with
      | (_, .separator) :: rest => readTokens rest o extras
      | rest => readTokens rest o extras
  | (argument, .separator) :: rest, o, extras =>
    match o.file, rest with
    | none, (file, .plain) :: rest => readTokens rest { o with file := some file } extras
    | _, rest => readTokens rest o (extras ++ [argument])
  | (argument, .unknown) :: rest, o, extras => readTokens rest o (extras ++ [argument])
  | (_, .option flag name behind) :: rest, o, extras => do
    let bundle ← refuse (bundleOf flag name behind)
    match bundle.awaiting, rest with
    | none, rest =>
      let o ← takeAll o bundle.given
      readTokens rest o extras
    | some awaiting, (value, .plain) :: rest =>
      let o ← takeAll o (bundle.given ++ [.ofText awaiting value])
      readTokens rest o extras
    | some awaiting, _ => .error (.refused (.missingValue awaiting))

/-- Reads the arguments of the command. -/
def readArguments (arguments : List String) : Reading :=
  match classifyAll arguments with
  | .error e => .refused e
  | .ok tokens =>
    match readTokens tokens .initial [] with
    | .error reading => reading
    | .ok (o, extras) =>
      if o.file.isNone then .refused .missingFile
      else if !extras.isEmpty then .refused (.unrecognized extras)
      else .ready o

end LastUse.Command
