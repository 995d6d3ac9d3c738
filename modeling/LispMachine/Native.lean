import LispMachine.Arity

/-!
# Native callables

The library that every module starts with, and the probes: callables that look
into the running machine or re-enter it. A native is identified by its name.
-/

namespace LispMachine

/-- The library that every module starts with. -/
inductive Builtin where
  | add
  | subtract
  | multiply
  | less
  | equal
  | same
  | car
  | cdr
  | cons
  | list
  | isNull
  | print
deriving DecidableEq

namespace Builtin

/-- The library in the order in which a module receives it. -/
def all : List Builtin :=
  [add, subtract, multiply, less, equal, same, car, cdr, cons, list, isNull, print]

/-- The symbol that names a library callable. -/
def name : Builtin → String
  | add => "+"
  | subtract => "-"
  | multiply => "*"
  | less => "<"
  | equal => "="
  | same => "eq"
  | car => "car"
  | cdr => "cdr"
  | cons => "cons"
  | list => "list"
  | isNull => "null"
  | print => "print"

/-- The argument counts of a library callable. -/
def arity : Builtin → Arity
  | add | multiply | list => .atLeast 0
  | subtract => .atLeast 1
  | less | equal | same | cons => .exactly 2
  | car | cdr | isNull | print => .exactly 1

/-- The library callable of a name. -/
def ofName? (name : String) : Option Builtin :=
  all.find? (fun builtin => builtin.name == name)

end Builtin

/-- Callables that inspect or re-enter the running machine. -/
inductive Probe where
  | collect
  | backtrace
  | depth
  | apply
  | functionOf
  | nothing
  | eval
deriving DecidableEq

namespace Probe

/-- The probes in the order in which they are installed. -/
def all : List Probe :=
  [collect, backtrace, depth, apply, functionOf, nothing, eval]

/-- The symbol that names a probe. -/
def name : Probe → String
  | collect => "%gc"
  | backtrace => "%backtrace"
  | depth => "%depth"
  | apply => "%apply"
  | functionOf => "%fn"
  | nothing => "%nothing"
  | eval => "%eval"

/-- The argument counts of a probe. -/
def arity : Probe → Arity
  | collect | backtrace | depth | nothing => .exactly 0
  | functionOf | eval => .exactly 1
  | apply => .atLeast 1

end Probe

/-- A callable that the machine carries out itself. -/
inductive Native where
  | builtin (builtin : Builtin)
  | probe (probe : Probe)
deriving DecidableEq

namespace Native

/-- The symbol that names a native. -/
def name : Native → String
  | builtin b => b.name
  | probe p => p.name

/-- The argument counts of a native. -/
def arity : Native → Arity
  | builtin b => b.arity
  | probe p => p.arity

/-- Diagnostic text of a native. -/
def describe (native : Native) : String := s!"NativeFunction({native.name})"

end Native

end LispMachine
