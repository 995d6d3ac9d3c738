import LispMachine.Config
import LispMachine.Text

/-!
# Command-line arguments

Flags stand anywhere among the arguments. An option takes its value either from
the next argument or after an equals sign; the last value given counts.
-/

namespace LispMachine.CommandLine

/-- What to show besides the results. -/
structure Options where
  gcStats : Bool
  disassemble : Bool
deriving DecidableEq

/-- What the arguments ask for, before any file is read. -/
structure Arguments where
  noCollection : Bool
  trace : Bool
  options : Options
  configPath : Option String
  gcThreshold : Option Nat
  maxArenas : Option Nat
  maxFrames : Option Nat
  operands : List String
deriving DecidableEq

/-- Why the arguments could not be taken apart. -/
inductive ArgumentError where
  | missingValue (name : String)
  | notANumber (name : String)
deriving DecidableEq

/-- The wording of an argument fault. -/
def ArgumentError.message : ArgumentError → String
  | .missingValue name => s!"Usage: deviser {name} <value>"
  | .notANumber name => s!"Error: {name} expects a non-negative integer."

/-- Takes every occurrence of a flag out of the arguments. -/
def takeFlag (flag : String) (args : List String) : Bool × List String :=
  (args.contains flag, args.filter fun arg => arg != flag)

/-- The value in an argument of the form `name=value`. -/
def inlineValue? (name arg : String) : Option String :=
  ((name ++ "=").toList.isPrefixOf? arg.toList).map String.ofList

/-- Takes every occurrence of an option out of the arguments, from left to right.
    The result is none when a value is missing; otherwise it holds the last value
    given, if any, and the arguments left. -/
def takeValue (name : String) : List String → Option (Option String × List String)
  | [] => some (none, [])
  | [arg] =>
      if arg = name then none
      else
        match inlineValue? name arg with
        | some value => some (some value, [])
        | none => some (none, [arg])
  | arg :: following :: rest =>
      if arg = name then
        match takeValue name rest with
        | none => none
        | some (later, left) => some (some (later.getD following), left)
      else
        match takeValue name (following :: rest), inlineValue? name arg with
        | none, _ => none
        | some (later, left), some value => some (some (later.getD value), left)
        | some (later, left), none => some (later, arg :: left)

/-- The natural number that a text spells: an optional plus sign and digits, below
    the word size of 64 bits. -/
def numberOf? (text : String) : Option Nat :=
  let digits :=
    match text.toList with
    | '+' :: digits => digits
    | digits => digits
  if digits ≠ [] ∧ digits.all Text.isDigit then
    let value := Text.decimal digits
    if value < 18446744073709551616 then some value else none
  else none

/-- Takes an option out of the arguments, or tells that its value is missing. -/
def takeOption (name : String) (args : List String) :
    Except ArgumentError (Option String × List String) :=
  match takeValue name args with
  | none => .error (.missingValue name)
  | some taken => .ok taken

/-- Takes an option with a number out of the arguments. -/
def takeNumber (name : String) (args : List String) :
    Except ArgumentError (Option Nat × List String) := do
  match ← takeOption name args with
  | (none, left) => return (none, left)
  | (some text, left) =>
      match numberOf? text with
      | some value => return (some value, left)
      | none => throw (.notANumber name)

/-- Takes the arguments apart. -/
def Arguments.parse (args : List String) : Except ArgumentError Arguments := do
  let (noCollection, args) := takeFlag "--no-gc" args
  let (trace, args) := takeFlag "--trace" args
  let (gcStats, args) := takeFlag "--gc-stats" args
  let (disassemble, args) := takeFlag "--disassemble" args
  let (configPath, args) ← takeOption "--config" args
  let (gcThreshold, args) ← takeNumber "--gc-threshold" args
  let (maxArenas, args) ← takeNumber "--max-arenas" args
  let (maxFrames, args) ← takeNumber "--max-frames" args
  return ⟨noCollection, trace, ⟨gcStats, disassemble⟩, configPath, gcThreshold, maxArenas,
    maxFrames, args⟩

/-- The settings after the arguments have overruled those of the settings file. -/
def Arguments.settings (a : Arguments) (config : Config) : Config :=
  { config with
    collects := config.collects && !a.noCollection
    trace := config.trace || a.trace
    gcThreshold := a.gcThreshold.getD config.gcThreshold
    maxArenas := a.maxArenas.or config.maxArenas
    maxFrames := a.maxFrames.getD config.maxFrames }

/-- What to do with the operands. -/
inductive Command where
  | unknownFlag (flag : String)
  | repl
  | help
  | missingPath
  | run (path : String)
deriving DecidableEq

/-- The command that the operands spell. -/
def Command.ofOperands (operands : List String) : Command :=
  match operands.find? fun arg => ['-', '-'].isPrefixOf arg.toList with
  | some flag => .unknownFlag flag
  | none =>
      match operands with
      | [] => .repl
      | "repl" :: _ => .repl
      | "-h" :: _ => .help
      | "help" :: _ => .help
      | ["run"] => .missingPath
      | "run" :: path :: _ => .run path
      | path :: _ => .run path

end LispMachine.CommandLine
