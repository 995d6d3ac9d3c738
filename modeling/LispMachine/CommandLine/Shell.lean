import LispMachine.CommandLine.Arguments
import LispMachine.Toplevel

/-!
# The shell

Evaluates texts for a person: forms one at a time, so that output and failures
come in the order of the forms. What is printed goes to the output of the
machine, failures to the error text.
-/

namespace LispMachine.CommandLine

/-- A machine and the error text written so far. -/
structure Shell where
  machine : Machine
  errors : String

namespace Shell

/-- Starts a machine under the given settings. -/
def start (config : Config) : Except HeapError Shell :=
  match Machine.boot config none with
  | .ok machine => .ok ⟨machine, ""⟩
  | .error e => .error e

/-- Writes a line of output. -/
def print (s : Shell) (line : String) : Shell :=
  { s with machine := s.machine.printLine line }

/-- Writes a line of error text. -/
def complain (s : Shell) (line : String) : Shell :=
  { s with errors := (s.errors ++ line).push '\n' }

/-- Evaluates at most `count` forms and counts the failures; with `echo`, prints
    the values. -/
def evalForms (fuel : Nat) (echo : Bool) :
    Nat → Reader → Nat → Shell → Option (Nat × Shell)
  | 0, _, failures, s => some (failures, s)
  | count + 1, reader, failures, ⟨m, errors⟩ =>
      match Machine.readForm reader m with
      | (.ok none, _, m) => some (failures, ⟨m, errors⟩)
      | (.error e, _, m) =>
          some (failures + 1, Shell.complain ⟨m, errors⟩ (EvalError.read e).message)
      | (.ok (some form), reader, m) =>
          match Machine.evalForm fuel form m with
          | .ok value m =>
              let m := if echo then m.printLine (m.display value) else m
              evalForms fuel echo count reader failures ⟨m, errors⟩
          | .error (.failed e) m =>
              evalForms fuel echo count reader (failures + 1)
                (Shell.complain ⟨m, errors⟩ e.message)
          | .error .outOfFuel _ => none

/-- Evaluates the forms of a text up to the first that cannot be read, and counts
    the failures. None means that the fuel ended. -/
def evalSource (fuel : Nat) (echo : Bool) (source : String) (s : Shell) :
    Option (Nat × Shell) :=
  let reader := Reader.ofSource source
  evalForms fuel echo (reader.ahead.length + 1) reader 0 s

/-- Prints the listing of everything defined since the last time. -/
def showDefinitions (s : Shell) : Shell :=
  let (cells, machine) := s.machine.takeDefinitions
  cells.foldl
    (fun s cell =>
      match s.machine.disassemble cell with
      | some listing => s.print listing
      | none => s)
    { s with machine := machine }

/-- Prints the heap statistics. -/
def showStats (s : Shell) : Shell := s.print s.machine.heap.stats.json

/-- Prints what the options ask for at the end. -/
def finish (options : Options) (s : Shell) : Shell :=
  let s := if options.disassemble then s.showDefinitions else s
  if options.gcStats then s.showStats else s

end Shell

end LispMachine.CommandLine
