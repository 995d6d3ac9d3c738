import LispMachine.CommandLine.Folder
import LispMachine.CommandLine.Line
import LispMachine.CommandLine.Repl
import LispMachine.Config.Text

/-!
# The command line

What a call of the program does, given the files it may read and the text on its
standard input.
-/

namespace LispMachine.CommandLine

/-- What a call of the program leaves behind. -/
structure Report where
  exit : Nat
  stdout : String
  stderr : String
deriving DecidableEq

namespace Report

/-- A call that only writes one line of error text. -/
def complaint (exit : Nat) (line : String) : Report := ⟨exit, "", line ++ "\n"⟩

/-- The report of a shell. -/
def ofShell (exit : Nat) (s : Shell) : Report := ⟨exit, s.machine.output, s.errors⟩

end Report

/-- The help text. -/
def help : String :=
  "Deviser\n" ++
  "\n" ++
  "Usage:\n" ++
  "  deviser                 Start the REPL\n" ++
  "  deviser repl            Start the REPL\n" ++
  "  deviser <file>          Evaluate every form in <file>\n" ++
  "  deviser run <file>      Same as above\n" ++
  "\n" ++
  "Flags:\n" ++
  "  --no-gc                 Never collect garbage\n" ++
  "  --gc-threshold=<n>      Allocations between collections (0 = before every form)\n" ++
  "  --max-arenas=<n>        Cap heap growth at <n> arenas\n" ++
  "  --max-frames=<n>        Frame-stack depth limit\n" ++
  "  --trace                 Log every executed instruction (RUST_LOG=trace)\n" ++
  "  --config <file>         Load VM settings from a JSON file\n" ++
  "  --gc-stats              Print heap statistics as JSON on exit\n" ++
  "  --disassemble           Print the bytecode of every defined function\n"

/-- Reads a file: its text, or why it cannot be read. -/
abbrev ReadFile := String → Except String String

/-- What is left to do once the arguments and the settings are known. -/
inductive Plan where
  | stop (report : Report)
  | repl (config : Config) (options : Options)
  | file (path : String) (config : Config) (options : Options)

/-- The settings in a file. -/
def loadConfig (path : String) (text : Except String String) : Except String Config :=
  match text with
  | .error cause => .error s!"cannot read config file {path}: {cause}"
  | .ok text =>
      match Config.ofText text with
      | .ok config => .ok config
      | .error fault => .error s!"invalid config file {path}: {fault.message}"

/-- The plan of arguments under given settings. -/
def Arguments.plan (a : Arguments) (config : Config) : Plan :=
  let config := a.settings config
  match Command.ofOperands a.operands with
  | .unknownFlag flag => .stop ⟨2, help, s!"Error: unknown flag {flag}\n"⟩
  | .repl => .repl config a.options
  | .help => .stop ⟨0, help, ""⟩
  | .missingPath => .stop (.complaint 0 "Usage: deviser run <file.lisp>")
  | .run path => .file path config a.options

/-- The plan of a call; `settings` reads the settings file. -/
def plan (settings : ReadFile) (args : List String) : Plan :=
  match Arguments.parse args with
  | .error e => .stop (.complaint 0 e.message)
  | .ok a =>
      match a.configPath with
      | none => a.plan {}
      | some path =>
          match loadConfig path (settings path) with
          | .ok config => a.plan config
          | .error cause => .stop (.complaint 2 s!"Error: {cause}")

/-- The report of a machine that cannot start. -/
def cannotStart (e : HeapError) : Report :=
  .complaint 2 s!"Error: cannot start the VM: {e.message}"

/-- Evaluates the text of a file. -/
def runFile (fuel : Nat) (path : String) (text : Except String String) (config : Config)
    (options : Options) : Option Report :=
  match text with
  | .error cause => some (.complaint 2 s!"Error: cannot read {path}: {cause}")
  | .ok source =>
      match Shell.start config with
      | .error e => some (cannotStart e)
      | .ok shell =>
          match shell.evalSource fuel false source with
          | none => none
          | some (failures, shell) =>
              some (.ofShell (if failures = 0 then 0 else 1) (shell.finish options))

/-- Holds an interactive session on a text. -/
def runRepl (fuel : Nat) (stdin : String) (config : Config) (options : Options) :
    Option Report :=
  match Shell.start config with
  | .error e => some (cannotStart e)
  | .ok shell =>
      match Repl.feedAll fuel (linesOf stdin) (Repl.start shell options) with
      | none => none
      | some session => some (.ofShell 0 session.finish)

/-- What a call of the program does. None means that the fuel ended. -/
def run (fuel : Nat) (readFile : ReadFile) (stdin : String) (args : List String) :
    Option Report :=
  match plan readFile args with
  | .stop report => some report
  | .repl config options => runRepl fuel stdin config options
  | .file path config options => runFile fuel path (readFile path) config options

end LispMachine.CommandLine
