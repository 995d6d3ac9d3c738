import LispMachine.Machine.Call

/-!
# What the natives do

Arithmetic is exact: a result outside the machine range is refused, and so is
every operand that is not an integer. The probes re-enter the machine through
its host.
-/

namespace LispMachine

/-- An argument by position. The arity of the native has been checked, so the
    positions it uses are there. -/
def argument (args : List Ref) (i : Nat) : Ref := args.getD i .null

namespace Builtin

/-- The values of integer arguments; the first argument that is no integer makes
    the call fail. -/
def integers (m : Machine) (function : String) : List Ref → Except RuntimeError (List Int64)
  | [] => .ok []
  | r :: rest =>
      match m.heap.integer? r with
      | none => .error (m.typeError function "integer" r)
      | some value =>
          match integers m function rest with
          | .error e => .error e
          | .ok values => .ok (value :: values)

/-- Adds from left to right. -/
def sum (values : List Int64) : Option Int64 :=
  values.foldlM (fun total value => machineInt? (total.toInt + value.toInt)) 0

/-- Multiplies from left to right. -/
def product (values : List Int64) : Option Int64 :=
  values.foldlM (fun total value => machineInt? (total.toInt * value.toInt)) 1

/-- Negates a single value, or subtracts the others from the first. -/
def difference : List Int64 → Option Int64
  | [] => some 0
  | [only] => machineInt? (-only.toInt)
  | first :: rest => rest.foldlM (fun total value => machineInt? (total.toInt - value.toInt)) first

/-- Computes with integer arguments and allocates the result. -/
def arithmetic (builtin : Builtin) (compute : List Int64 → Option Int64) (args : List Ref) :
    Action RuntimeError Ref := do
  match integers (← get) builtin.name args with
  | .error e => Machine.fail e
  | .ok values =>
      match compute values with
      | none => Machine.fail (.integerOverflow builtin.name)
      | some value => Machine.onHeap RuntimeError.ofHeap (Heap.integer value)

/-- Compares two integer arguments. -/
def comparison (builtin : Builtin) (holds : Int64 → Int64 → Bool) (args : List Ref) :
    Action RuntimeError Ref := do
  let m ← get
  match integers m builtin.name args with
  | .error e => Machine.fail e
  | .ok values => return m.boolean (holds (values.getD 0 0) (values.getD 1 0))

/-- Identity, except that integers are compared by value. -/
def isSame (h : Heap) (a b : Ref) : Bool :=
  a = b ||
    match h.integer? a, h.integer? b with
    | some x, some y => x == y
    | _, _ => false

/-- One half of a pair; the halves of the empty list are empty lists. -/
def half (builtin : Builtin) (part : Ref × Ref → Ref) (list : Ref) :
    Action RuntimeError Ref := do
  let m ← get
  match m.heap.pair? list with
  | some pair => return part pair
  | none =>
      if list.isNull then return list
      else Machine.fail (m.typeError builtin.name "list" list)

/-- Carries out a library callable. -/
def run (builtin : Builtin) (args : List Ref) : Action RuntimeError Ref :=
  match builtin with
  | add => arithmetic add sum args
  | subtract => arithmetic subtract difference args
  | multiply => arithmetic multiply product args
  | less => comparison less (fun a b => a.toInt < b.toInt) args
  | equal => comparison equal (fun a b => a == b) args
  | same => do
      let m ← get
      return m.boolean (isSame m.heap (argument args 0) (argument args 1))
  | car => half car Prod.fst (argument args 0)
  | cdr => half cdr Prod.snd (argument args 0)
  | cons => Machine.onHeap RuntimeError.ofHeap (Heap.cons (argument args 0) (argument args 1))
  | list => Machine.onHeap RuntimeError.ofHeap (Heap.list args)
  | isNull => do
      let m ← get
      return m.boolean (argument args 0).isNull
  | print => do
      let value := argument args 0
      modify fun m => m.printLine (m.display value)
      return value

end Builtin

namespace Probe

/-- Allocates a count. -/
def count (n : Nat) : Action RuntimeError (Option Ref) := do
  return some (← Machine.onHeap RuntimeError.ofHeap (Heap.integer (Int64.ofNat n)))

/-- Carries out a probe. The result is none for the probe that hands nothing
    back. -/
def run (host : Host) (probe : Probe) (args : List Ref) : Action RuntimeError (Option Ref) :=
  match probe with
  | collect => do
      let cycle ← modifyGet Machine.collectGarbage
      count cycle.freed
  | backtrace => do
      modify fun m => m.backtrace.foldl Machine.printLine m
      return some .null
  | depth => do count (← get).depth
  | apply => do return some (← host (.apply (argument args 0) (args.drop 1)))
  | functionOf => do
      let m ← get
      match m.registry.function? m.user (argument args 0) with
      | some function => return some function
      | none => return some .null
  | nothing => return none
  | eval => do return some (← host (.eval (argument args 0)))

end Probe

namespace Native

/-- Carries out a native. -/
def run (host : Host) (native : Native) (args : List Ref) : Action RuntimeError (Option Ref) :=
  match native with
  | builtin b => do return some (← b.run args)
  | probe p => p.run host args

end Native

namespace Machine

/-- Calls a native in a frame of its own. -/
def callNative (host : Host) (native : Native) (args : List Ref) : Action RuntimeError Unit := do
  checkArity (fun _ => native.name) native.arity args.length
  let home := (← get).top.home
  enter (.ofNative native home args)
  match ← native.run host args with
  | some value => modify fun m => m.push value
  | none => pure ()
  giveBack

/-- Calls a value. -/
def invoke (host : Host) (callee : Ref) (args : List Ref) : Action RuntimeError Unit := do
  let m ← get
  match m.heap.scalar? callee with
  | some (.native native) => callNative host native args
  | some (.function code) => callCode code args
  | some (.expander code) => fail (.macroCall (m.codeName code))
  | _ => fail (.notCallable (m.display callee))

end Machine

end LispMachine
