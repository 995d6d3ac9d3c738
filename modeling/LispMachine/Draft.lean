import LispMachine.Code
import LispMachine.Opcode

/-!
# Scopes and drafts

A scope gives slots to the parameters and locals of one function. Slots are
positions in the parameters followed by the locals. A local whose extent has
ended is blanked and keeps its slot, so no slot is given out twice.

A draft is a function under construction: its scope, its constants and the words
written so far.
-/

namespace LispMachine

/-- Slots of one function. -/
structure Scope where
  arguments : Array Ref
  takesRest : Bool
  locals : Array (Option Ref)
deriving DecidableEq, Inhabited

namespace Scope

/-- A scope without parameters. -/
def empty : Scope := ⟨#[], false, #[]⟩

/-- The last of the first `count` locals that holds a name. -/
def lastLocal (s : Scope) (name : Ref) : Nat → Option Nat
  | 0 => none
  | count + 1 =>
      match s.locals[count]? with
      | some (some other) => if other = name then some count else s.lastLocal name count
      | _ => s.lastLocal name count

/-- The slot of a name: the newest local in force, then the first parameter. -/
def resolve (s : Scope) (name : Ref) : Option Nat :=
  match s.lastLocal name s.locals.size with
  | some position => some (s.arguments.size + position)
  | none => s.arguments.findIdx? fun argument => argument = name

/-- Adds a parameter. -/
def addArgument (s : Scope) (name : Ref) : Scope :=
  { s with arguments := s.arguments.push name }

/-- Number of slots in use. -/
def slots (s : Scope) : Nat := s.arguments.size + s.locals.size

/-- Number of parameters, the rest parameter not counted. -/
def params (s : Scope) : Nat := s.arguments.size - (if s.takesRest then 1 else 0)

/-- Gives the next slot to a local. -/
def bindLocal (s : Scope) (name : Ref) : Nat × Scope :=
  (s.slots, { s with locals := s.locals.push (some name) })

/-- Number of locals bound so far, ended ones included. -/
def mark (s : Scope) : Nat := s.locals.size

/-- Ends the extent of every local bound since the mark. -/
def release (s : Scope) (mark : Nat) : Scope :=
  { s with locals := s.locals.mapIdx fun i name => if i < mark then name else none }

/-- Binds names from first to last and collects the slots of those that have an
    initial value, last first. -/
def bindAll (s : Scope) (bindings : List (Ref × Option Ref)) : Scope × List Nat :=
  bindings.foldl
    (fun (s, stores) (name, value) =>
      let (slot, s) := s.bindLocal name
      (s, if value.isSome then slot :: stores else stores))
    (s, [])

end Scope

/-- A function under construction. -/
structure Draft where
  scope : Scope
  constants : Array Ref
  words : Array UInt16
deriving DecidableEq, Inhabited

namespace Draft

/-- The draft of a function without parameters. -/
def empty : Draft := ⟨.empty, #[], #[]⟩

/-- The index of a constant, which joins at the end when it is new. -/
def addConstant (d : Draft) (cell : Ref) : Nat × Draft :=
  match d.constants.findIdx? fun constant => constant = cell with
  | some index => (index, d)
  | none => (d.constants.size, { d with constants := d.constants.push cell })

/-- Writes words at the end. -/
def write (d : Draft) (words : List UInt16) : Draft :=
  { d with words := d.words ++ words }

/-- Overwrites the operand of the instruction at an offset. -/
def patch (d : Draft) (position operand : Nat) : Draft :=
  { d with words := d.words.setIfInBounds (position + 1) (UInt16.ofNat operand) }

/-- The finished code. -/
def finish (d : Draft) (name home : Ref) : Code where
  name := name
  params := d.scope.params
  takesRest := d.scope.takesRest
  slots := d.scope.slots
  constants := d.constants
  words := d.words
  home := home

end Draft

end LispMachine
