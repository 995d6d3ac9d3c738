import LispMachine.CommandLine

/-!
# The program

Reads files and lines, hands them to the command line and writes what comes
back.
-/

namespace LispMachine.Program

open CommandLine

/-- More steps than any session takes. -/
def ampleFuel : Nat := 4611686018427387904

/-- The text of a file, or why it cannot be read. -/
def readText (path : String) : IO (Except String String) := do
  try
    return .ok (← IO.FS.readFile path)
  catch e =>
    match e with
    | .noFileOrDirectory _ _ _ => return .error FileFault.missing.message
    | .inappropriateType _ 20 _ => return .error FileFault.notFolder.message
    | .inappropriateType _ 21 _ => return .error FileFault.isFolder.message
    | e => return .error (toString e)

/-- Writes a report and gives its exit code. -/
def conclude (report : Report) : IO UInt32 := do
  IO.print report.stdout
  IO.eprint report.stderr
  return UInt32.ofNat report.exit

/-- Writes what a session has to say so far. -/
def flush (r : Repl) : IO Repl := do
  let (text, machine) := r.shell.machine.takeOutput
  IO.print text
  IO.eprint r.shell.errors
  (← IO.getStdout).flush
  return { r with shell := ⟨machine, ""⟩ }

/-- Takes lines from standard input until the session ends. -/
partial def converse (input : IO.FS.Stream) (r : Repl) : IO UInt32 := do
  let r ← flush r
  let line ← input.getLine
  if line.isEmpty then
    conclude (.ofShell 0 r.finish)
  else
    match Repl.feed ampleFuel ((linesOf line).headD "") r with
    | .more r => converse input r
    | .quit r => conclude (.ofShell 0 r.finish)
    | .outOfFuel => return 3

/-- Runs the program. -/
def run (args : List String) : IO UInt32 := do
  let settings ←
    match Arguments.parse args with
    | .ok { configPath := some path, .. } => readText path
    | _ => pure (.ok "")
  match plan (fun _ => settings) args with
  | .stop report => conclude report
  | .repl config options =>
      match Shell.start config with
      | .error e => conclude (cannotStart e)
      | .ok shell => converse (← IO.getStdin) (Repl.start shell options)
  | .file path config options =>
      match runFile ampleFuel path (← readText path) config options with
      | some report => conclude report
      | none => return 3

end LispMachine.Program

/-- The entry point. -/
def main (args : List String) : IO UInt32 := LispMachine.Program.run args
