import LispMachine.Heap
import LispMachine.Registry

/-!
# The printer

Writes data the way the reader reads it. Callables and modules have no reading
and print in angle brackets.
-/

namespace LispMachine

namespace Printer

/-- The name of a symbol cell, or a stand-in for code without a name. -/
def nameOr (h : Heap) (name : Ref) : String :=
  match h.symbol? name with
  | some name => name
  | none => "anonymous"

/-- The text of a scalar. -/
def scalar (h : Heap) (modules : Registry) : Scalar → String
  | .integer value => toString value.toInt
  | .symbol name => name
  | .native native => s!"#<native {native.name}>"
  | .function code => s!"#<function {nameOr h code.name}>"
  | .expander code => s!"#<macro {nameOr h code.name}>"
  | .moduleCell id => s!"#<module {nameOr h (modules.nameOf id)}>"

mutual

/-- Writes a value after the text `out`; none when the bound is reached first. -/
def write (h : Heap) (modules : Registry) : Nat → String → Ref → Option String
  | 0, _, _ => none
  | bound + 1, out, r =>
      if r.isNull then some (out ++ "()")
      else
        match h.cell? r with
        | none => some (out ++ "#<invalid>")
        | some (.free _) => some (out ++ "#<free>")
        | some (.scalar s) => some (out ++ scalar h modules s)
        | some (.pair car cdr) =>
            match write h modules bound (out.push '(') car with
            | none => none
            | some out => writeRest h modules bound out cdr

/-- Writes what follows an item of a list. -/
def writeRest (h : Heap) (modules : Registry) : Nat → String → Ref → Option String
  | 0, _, _ => none
  | bound + 1, out, r =>
      match h.pair? r with
      | some (car, cdr) =>
          match write h modules bound (out.push ' ') car with
          | none => none
          | some out => writeRest h modules bound out cdr
      | none =>
          if r.isNull then some (out.push ')')
          else
            match write h modules bound (out ++ " . ") r with
            | none => none
            | some out => some (out.push ')')

end

/-- The text of a value. Without a cycle, no way into a value passes more pairs
    than the heap has cells; a dotted tail takes two further steps. A value that
    contains itself has no text, and the empty text stands for it. -/
def display (h : Heap) (modules : Registry) (r : Ref) : String :=
  (write h modules (h.cells.size + 2) "" r).getD ""

end Printer

end LispMachine
