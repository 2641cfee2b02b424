import PathQuery.CommandLine.Run

/-!
# The command

Reads the configuration file that the arguments name, runs the request, writes the notices and the
result, and ends with the exit code of the outcome.
-/

open PathQuery PathQuery.CommandLine

/-- The text of a file, unless it cannot be read. -/
def readFile? (file : String) : IO (Option String) :=
  try return some (← IO.FS.readFile file) catch _ => return none

def main (args : List String) : IO UInt32 := do
  let request := Request.ofArguments args
  let (config, verbose) := match request with
    | .run arguments => (arguments.config, arguments.verbose)
    | _ => (none, false)
  let text ← match config with
    | some file => readFile? file
    | none => pure none
  let (outcome, memory) := (request.outcome fun _ => text).run Memory.empty
  for notice in memory.log do
    if verbose || notice.level == .warn then IO.eprintln notice.line
  IO.print outcome.stdout
  if outcome.stderr ≠ "" then IO.eprintln outcome.stderr
  return outcome.exitCode.toUInt32
