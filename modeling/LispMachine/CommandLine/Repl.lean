import LispMachine.CommandLine.Shell

/-!
# The interactive session

Takes lines. Lines are gathered until their parentheses are balanced, then
evaluated with their values printed. A line that is a command is obeyed when
nothing has been gathered.
-/

namespace LispMachine.CommandLine

/-- An interactive session: the shell and the lines gathered so far. -/
structure Repl where
  shell : Shell
  options : Options
  buffer : String

namespace Repl

/-- The first line of a session. -/
def banner : String := "Deviser REPL v0.1.0 (type :help for help, :quit to exit)"

/-- The help on commands. -/
def help : String :=
  "Commands:\n" ++
  "  :quit, :q    Exit the REPL\n" ++
  "  :help, :h    Show this help message\n" ++
  "  :gc          Collect garbage now and show heap statistics\n" ++
  "\n" ++
  "Enter forms such as (defun sq (x) (* x x)) or (sq 7).\n" ++
  "Unbalanced parentheses continue the form on the next line."

/-- A line given while nothing is gathered. -/
inductive Command where
  | blank
  | quit
  | help
  | collect
  | text
deriving DecidableEq

/-- The command that a line spells. -/
def Command.ofLine (line : String) : Command :=
  match Text.trim line with
  | "" => .blank
  | ":quit" => .quit
  | ":q" => .quit
  | ":help" => .help
  | ":h" => .help
  | ":gc" => .collect
  | _ => .text

/-- A session that has shown its banner. -/
def start (shell : Shell) (options : Options) : Repl :=
  ⟨shell.print banner, options, ""⟩

/-- Collects garbage and shows the statistics. -/
def collect (s : Shell) : Shell :=
  match s with
  | ⟨machine, errors⟩ =>
      let (cycle, machine) := machine.collectGarbage
      let s : Shell := ⟨machine, errors⟩
      let s := s.print s!"freed {cycle.freed} of {s.machine.heap.capacity} cells"
      s.print s.machine.heap.stats.summary

/-- Evaluates the gathered lines if they are complete. -/
def evalBuffer (fuel : Nat) (r : Repl) : Option Repl :=
  if isComplete r.buffer then
    match r.shell.evalSource fuel true r.buffer with
    | none => none
    | some (_, shell) =>
        let shell := if r.options.disassemble then shell.showDefinitions else shell
        some ⟨shell, r.options, ""⟩
  else some r

/-- Gathers a line. -/
def gather (fuel : Nat) (line : String) (r : Repl) : Option Repl :=
  evalBuffer fuel { r with buffer := (r.buffer ++ line).push '\n' }

/-- What a line does to a session. -/
inductive Reply where
  | more (r : Repl)
  | quit (r : Repl)
  | outOfFuel

/-- Goes on with a session that may have run out of fuel. -/
def Reply.ofOption : Option Repl → Reply
  | some r => .more r
  | none => .outOfFuel

/-- Takes one line. -/
def feed (fuel : Nat) (line : String) (r : Repl) : Reply :=
  if r.buffer.isEmpty then
    match Command.ofLine line with
    | .blank => .more r
    | .quit => .quit r
    | .help => .more { r with shell := r.shell.print help }
    | .collect => .more { r with shell := collect r.shell }
    | .text => .ofOption (gather fuel line r)
  else .ofOption (gather fuel line r)

/-- Takes lines until the session is left or the lines end. -/
def feedAll (fuel : Nat) : List String → Repl → Option Repl
  | [], r => some r
  | line :: rest, r =>
      match feed fuel line r with
      | .more r => feedAll fuel rest r
      | .quit r => some r
      | .outOfFuel => none

/-- Ends a session. -/
def finish (r : Repl) : Shell :=
  let shell := if r.options.gcStats then r.shell.showStats else r.shell
  shell.print "Goodbye!"

end Repl

end LispMachine.CommandLine
