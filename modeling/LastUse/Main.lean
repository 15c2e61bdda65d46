import LastUse.Command.Run

/-!
# The command line

Reads arguments and files, runs the command, and shows what it leaves behind.
-/

namespace LastUse

/-- The error about a file that the system reports. -/
def fileErrorOf : IO.Error → FileError
  | .noFileOrDirectory .. => .notFound
  | .inappropriateType .. => .isADirectory
  | e => .other (toString e)

/-- The file system of the machine. -/
def machineDisk : Disk IO where
  read path := do
    if path.contains '\x00' then return .error .nullCharacter
    try
      let text ← IO.FS.readFile path
      pure (.ok text)
    catch e => pure (.error (fileErrorOf e))
  write path content := do
    if path.contains '\x00' then return .error .nullCharacter
    try
      IO.FS.writeFile path content
      pure (.ok ())
    catch e => pure (.error (fileErrorOf e))

end LastUse

open LastUse in
/-- Runs the command. -/
def main (arguments : List String) : IO UInt32 := do
  match ← Command.run machineDisk arguments with
  | .error _ =>
    IO.eprintln "error: the document holds a value that cannot be used"
    return 1
  | .ok outcome =>
    for (level, message) in outcome.log do
      IO.eprintln (level.text ++ ": " ++ message)
    for line in outcome.errors do
      IO.eprintln line
    IO.print outcome.output
    return outcome.exitCode.toUInt32
