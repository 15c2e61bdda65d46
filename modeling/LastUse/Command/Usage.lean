/-!
# Usage and help of the command
-/

namespace LastUse.Command

/-- The name of the command. -/
def commandName : String := "lastaccess"

/-- How the command is called. -/
def usageLines : List String :=
  ["usage: lastaccess [-h] [--binding BINDING] [--json] [--output OUTPUT]",
   "                  [--format \x7bjson,dot,all\x7d] [--no-reachability] [--verbose]",
   "                  file"]

/-- What the command does and what its options mean. -/
def helpLines : List String :=
  usageLines ++
  ["",
   "Report which accesses of each binding are provably its last access",
   "",
   "positional arguments:",
   "  file                  Function body serialised as JSON",
   "",
   "options:",
   "  -h, --help            show this help message and exit",
   "  --binding BINDING, -b BINDING",
   "                        Binding to analyse; repeatable (default: parameters",
   "                        and locals)",
   "  --json                Emit machine-readable JSON",
   "  --output OUTPUT, -o OUTPUT",
   "                        Write the CFG graph next to this path",
   "  --format \x7bjson,dot,all\x7d",
   "                        Graph format for --output",
   "  --no-reachability     Exclude whole backward-goto spans",
   "  --verbose, -v         Log analysis details"]

end LastUse.Command
