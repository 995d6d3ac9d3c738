/-!
# Cell handles

A handle is a position in the heap. Position zero names no cell: it is the
empty list, which is also the false value.
-/

namespace LispMachine

/-- Handle of a heap cell; index zero is the empty list. -/
structure Ref where
  index : Nat
deriving DecidableEq, Inhabited

namespace Ref

/-- The empty list. -/
def null : Ref := ⟨0⟩

/-- Handle of the cell at a zero-based heap position. -/
@[inline] def ofSlot (slot : Nat) : Ref := ⟨slot + 1⟩

/-- Whether the handle is the empty list. -/
@[inline] def isNull (r : Ref) : Bool := r.index == 0

/-- Zero-based heap position of the cell, if the handle can name one. -/
@[inline] def slot? (r : Ref) : Option Nat :=
  match r.index with
  | 0 => none
  | slot + 1 => some slot

/-- Diagnostic text of a handle. -/
def describe (r : Ref) : String :=
  if r.isNull then "CellRef(null)" else s!"CellRef({r.index})"

@[simp] theorem isNull_null : null.isNull = true := rfl

@[simp] theorem isNull_ofSlot (slot : Nat) : (ofSlot slot).isNull = false := by
  simp [isNull, ofSlot]

@[simp] theorem slot?_ofSlot (slot : Nat) : (ofSlot slot).slot? = some slot := rfl

theorem isNull_iff (r : Ref) : r.isNull = true ↔ r = null := by
  cases r with
  | mk index => simp [isNull, null]

end Ref

end LispMachine
