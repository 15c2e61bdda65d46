import LastUse.Text.Quoted

/-!
# Files

What the program needs of a file system, and a folder kept in memory that provides it.
-/

namespace LastUse

/-- Why a file cannot be opened. -/
inductive FileError where
  | notFound
  | notADirectory
  | isADirectory
  | nameTooLong
  /-- A path cannot hold a null character. -/
  | nullCharacter
  /-- Another reason, in the words of the system. -/
  | other (reason : String)
deriving DecidableEq, Repr, Inhabited

/-- The wording of an error about a file. -/
def FileError.message (path : String) : FileError → String
  | .notFound => "[Errno 2] No such file or directory: " ++ Text.quoted path
  | .notADirectory => "[Errno 20] Not a directory: " ++ Text.quoted path
  | .isADirectory => "[Errno 21] Is a directory: " ++ Text.quoted path
  | .nameTooLong => "[Errno 36] File name too long: " ++ Text.quoted path
  | .nullCharacter => "embedded null byte"
  | .other reason => reason

/-- A file system. -/
structure Disk (m : Type → Type) where
  read : String → m (Except FileError String)
  write : String → String → m (Except FileError Unit)

/-- A working folder, by the names of its files relative to it. -/
structure Folder where
  files : List (String × String)
deriving Repr, Inhabited

/-- What stands at a place. -/
inductive Entry where
  | file (content : String)
  | directory
deriving DecidableEq, Repr, Inhabited

/-- A place that a path leads to. -/
inductive Spot where
  /-- A place in the folder, by the names on the way to it. -/
  | inside (names : List String)
  /-- A directory that the folder lies in. -/
  | above
  /-- Any other place, where nothing is. -/
  | elsewhere
deriving DecidableEq, Repr, Inhabited

namespace Spot

/-- The directory that a place lies in. -/
def parent : Spot → Spot
  | .inside [] => .above
  | .inside names => .inside names.dropLast
  | spot => spot

/-- The place with a name in a directory. -/
def child (name : String) : Spot → Spot
  | .inside names => .inside (names ++ [name])
  | _ => .elsewhere

end Spot

namespace Folder

/-- The most bytes of a name. -/
def nameLimit : Nat := 255

/-- The most bytes of a path. -/
def pathLimit : Nat := 4095

/-- The names on the way to a file, from its name relative to the folder. -/
def namesOf (path : String) : List String :=
  (path.splitOn "/").filter fun c => c ≠ "" && c ≠ "."

/-- What stands in the folder at the end of some names: a directory is there if some file lies in
it. -/
def entryInside (f : Folder) (names : List String) : Option Entry :=
  match f.files.find? fun file => namesOf file.1 = names with
  | some file => some (.file file.2)
  | none =>
    if names.isEmpty || f.files.any fun file =>
      names.isPrefixOf (namesOf file.1) then some .directory
    else none

/-- What stands at a place. -/
def entry? (f : Folder) : Spot → Option Entry
  | .inside names => f.entryInside names
  | .above => some .directory
  | .elsewhere => none

/-- One step on the way of a path, which only a directory allows. -/
def step (f : Folder) (spot : Spot) (name : String) : Except FileError Spot :=
  match f.entry? spot with
  | none => .error .notFound
  | some (.file _) => .error .notADirectory
  | some .directory =>
    if name = "" || name = "." then .ok spot
    else if name = ".." then .ok spot.parent
    else if nameLimit < name.utf8ByteSize then .error .nameTooLong
    else .ok (spot.child name)

/-- The place that a path leads to. -/
def locate (f : Folder) (path : String) : Except FileError Spot :=
  if path.contains '\x00' then .error .nullCharacter
  else if path.isEmpty then .error .notFound
  else if pathLimit < path.utf8ByteSize then .error .nameTooLong
  else (path.splitOn "/").foldlM f.step (if path.startsWith "/" then .above else .inside [])

/-- The content of the file at a path. -/
def read (f : Folder) (path : String) : Except FileError String := do
  let spot ← f.locate path
  match f.entry? spot with
  | some (.file content) => pure content
  | some .directory => throw .isADirectory
  | none => throw .notFound

/-- The files with one of them written. -/
def put (names : List String) (content : String) : List (String × String) → List (String × String)
  | [] => [(Text.joined "/" names, content)]
  | file :: rest =>
    if namesOf file.1 = names then (file.1, content) :: rest else file :: put names content rest

/-- The folder after a file is written. A file outside of it leaves it as it is. -/
def write (f : Folder) (path content : String) : Except FileError Folder := do
  let spot ← f.locate path
  match f.entry? spot, spot with
  | some .directory, _ => throw .isADirectory
  | _, .inside names => pure ⟨put names content f.files⟩
  | _, _ => pure f

/-- A folder in memory as a file system. -/
def disk : Disk (StateM Folder) where
  read path := do
    let f ← get
    pure (f.read path)
  write path content := do
    let f ← get
    match f.write path content with
    | .error e => pure (.error e)
    | .ok f =>
      set f
      pure (.ok ())

/-- The files that are new or changed since an earlier state of the folder. -/
def changed (f earlier : Folder) : List (String × String) :=
  f.files.filter fun file => !earlier.files.contains file

end Folder

end LastUse
