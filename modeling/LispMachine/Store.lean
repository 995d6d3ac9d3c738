import LispMachine.Assoc
import LispMachine.Heap

/-!
# Symbols and the store

Every symbol name owns one cell, so symbols are equal exactly when their handles
are. The store is a heap together with the table from names to cells.
-/

namespace LispMachine

/-- The names that the compiler and the top level give a meaning of their own. -/
inductive Keyword where
  | quote
  | if_
  | let_
  | rest
  | defineFunction
  | defineExpander
  | defineVariable
  | inModule
  | t
  | user
deriving DecidableEq

namespace Keyword

/-- Every keyword, in numbering order. -/
def all : List Keyword :=
  [quote, if_, let_, rest, defineFunction, defineExpander, defineVariable, inModule, t, user]

/-- The symbol name of a keyword. -/
def name : Keyword → String
  | quote => "quote"
  | if_ => "if"
  | let_ => "let"
  | rest => "&rest"
  | defineFunction => "defun"
  | defineExpander => "defmacro"
  | defineVariable => "defvar"
  | inModule => "module"
  | t => "t"
  | user => "user"

/-- The keyword of a symbol name. -/
def ofName? (name : String) : Option Keyword :=
  all.find? fun keyword => keyword.name == name

end Keyword

/-- The keyword that a cell is the symbol of. -/
def Heap.keyword? (h : Heap) (r : Ref) : Option Keyword :=
  match h.symbol? r with
  | some name => Keyword.ofName? name
  | none => none

/-- A heap and the table from symbol names to symbol cells. -/
structure Store where
  heap : Heap
  symbols : List (String × Ref)
deriving Inhabited

namespace Store

/-- A store without symbols. -/
def ofHeap (heap : Heap) : Store := ⟨heap, []⟩

/-- The cell of a symbol name that has one already. -/
def lookup (s : Store) (name : String) : Option Ref := Assoc.lookup name s.symbols

/-- Every symbol cell. -/
def roots (s : Store) : List Ref := s.symbols.map Prod.snd

/-- New symbols join the table. -/
theorem mem_roots_insert {s : Store} {r : Ref} {name : String} (unknown : s.lookup name = none)
    (cell : Ref) : r ∈ s.roots ∨ r = cell → r ∈ (Assoc.insert name cell s.symbols).map Prod.snd := by
  rw [Assoc.insert_of_unknown unknown]
  intro member
  simp only [List.map_append, List.mem_append, List.map_cons, List.map_nil, List.mem_singleton]
  exact member

/-- Carries out a heap operation in the heap of the store. -/
@[inline] def onHeap {ε α : Type} (action : EStateM ε Heap α) : EStateM ε Store α := fun s =>
  match s with
  | ⟨heap, symbols⟩ =>
      match action heap with
      | .ok value heap => .ok value ⟨heap, symbols⟩
      | .error e heap => .error e ⟨heap, symbols⟩

/-- Records the cell of a new symbol name. -/
def record (name : String) (cell : Ref) (s : Store) : Store :=
  { s with symbols := Assoc.insert name cell s.symbols }

/-- The cell of a symbol name, allocated on first use. -/
def intern (name : String) : EStateM HeapError Store Ref := do
  match (← get).lookup name with
  | some cell => return cell
  | none =>
      let cell ← onHeap (Heap.allocScalar (.symbol name))
      modify (record name cell)
      return cell

end Store

end LispMachine
