import LispMachine.Assoc
import LispMachine.Heap

/-!
# Modules

A module is a named pair of symbol-keyed maps, one for values and one for
functions, so that a symbol may name both. The registry keeps every module ever
created and finds them by name.
-/

namespace LispMachine

/-- A named pair of namespaces. -/
structure Module where
  name : Ref
  cell : Ref
  values : List (Ref × Ref)
  functions : List (Ref × Ref)
deriving DecidableEq, Inhabited

namespace Module

/-- The value bound to a symbol. -/
def value? (m : Module) (symbol : Ref) : Option Ref := Assoc.lookup symbol m.values

/-- The function bound to a symbol. -/
def function? (m : Module) (symbol : Ref) : Option Ref := Assoc.lookup symbol m.functions

/-- Binds a value. -/
def bindValue (m : Module) (symbol value : Ref) : Module :=
  { m with values := Assoc.insert symbol value m.values }

/-- Binds a function. -/
def bindFunction (m : Module) (symbol function : Ref) : Module :=
  { m with functions := Assoc.insert symbol function m.functions }

/-- Both sides of every binding. -/
def bindingRoots (bindings : List (Ref × Ref)) : List Ref :=
  bindings.flatMap fun (symbol, bound) => [symbol, bound]

/-- The name, the cell and both sides of every binding. -/
def roots (m : Module) : List Ref :=
  m.name :: m.cell :: (bindingRoots m.values ++ bindingRoots m.functions)

end Module

/-- Every module ever created, and the index by name. -/
structure Registry where
  modules : Array Module
  byName : List (Ref × ModuleId)
deriving Inhabited

namespace Registry

/-- A registry without modules. -/
def empty : Registry := ⟨#[], []⟩

/-- The module of a name. -/
def find? (r : Registry) (name : Ref) : Option ModuleId := Assoc.lookup name r.byName

/-- The module with an identifier. -/
def get? (r : Registry) (id : ModuleId) : Option Module := r.modules[id]?

/-- Number of modules. -/
def size (r : Registry) : Nat := r.modules.size

/-- Adds an empty module; a second module of one name hides the first. -/
def add (r : Registry) (name cell : Ref) : Registry :=
  { modules := r.modules.push ⟨name, cell, [], []⟩
    byName := Assoc.insert name r.modules.size r.byName }

/-- Allocates the cell of a new module and adds the module. -/
def create (r : Registry) (name : Ref) : EStateM HeapError Heap (ModuleId × Registry) := do
  let cell ← Heap.allocScalar (.moduleCell r.size)
  return (r.size, r.add name cell)

/-- The value bound to a symbol in a module. -/
def value? (r : Registry) (id : ModuleId) (symbol : Ref) : Option Ref :=
  match r.get? id with
  | some m => m.value? symbol
  | none => none

/-- The function bound to a symbol in a module. -/
def function? (r : Registry) (id : ModuleId) (symbol : Ref) : Option Ref :=
  match r.get? id with
  | some m => m.function? symbol
  | none => none

/-- Binds a value in a module. -/
def bindValue (r : Registry) (id : ModuleId) (symbol value : Ref) : Registry :=
  { r with modules := r.modules.modify id fun m => m.bindValue symbol value }

/-- Binds a function in a module. -/
def bindFunction (r : Registry) (id : ModuleId) (symbol function : Ref) : Registry :=
  { r with modules := r.modules.modify id fun m => m.bindFunction symbol function }

/-- The cell of a module. -/
def cellOf (r : Registry) (id : ModuleId) : Ref :=
  match r.get? id with
  | some m => m.cell
  | none => .null

/-- The name of a module. -/
def nameOf (r : Registry) (id : ModuleId) : Ref :=
  match r.get? id with
  | some m => m.name
  | none => .null

/-- Names, cells and both sides of every binding of every module. -/
def roots (r : Registry) : List Ref := r.modules.toList.flatMap Module.roots

end Registry

end LispMachine
