import LispMachine.Heap

/-!
# Garbage collection

A cycle marks every cell that the roots lead to, wave by wave, and then sweeps
the heap in ascending order: marked cells lose their mark, all other cells in
use join the front of the free list. Nothing moves.
-/

namespace LispMachine

namespace Heap

/-- Progress of marking: the slots of the heap, the cells marked in the current
    wave (newest first) and the number of cells marked so far. -/
structure Marking where
  cells : Array Entry
  wave : List Ref
  count : Nat

namespace Marking

/-- Marks a cell in use that is not marked yet, and adds it to the wave. -/
def visit (m : Marking) (r : Ref) : Marking :=
  match r.slot? with
  | none => m
  | some slot =>
      match m.cells[slot]? with
      | none => m
      | some entry =>
          if entry.marked || entry.cell.isFree then m
          else
            { cells := m.cells.modify slot fun e => { e with marked := true }
              wave := r :: m.wave
              count := m.count + 1 }

/-- The cells that a cell refers to. -/
@[inline] def childrenOf (cells : Array Entry) (r : Ref) : List Ref :=
  match r.slot? with
  | none => []
  | some slot =>
      match cells[slot]? with
      | none => []
      | some entry => entry.cell.children

/-- Visits the children of one cell. -/
@[inline] def expand (m : Marking) (r : Ref) : Marking :=
  (childrenOf m.cells r).foldl visit m

/-- Follows wave after wave until a wave is empty. Every wave but the last marks
    a cell, so the number of cells bounds the number of waves. -/
def spread : Nat → Marking → Marking
  | 0, m => m
  | bound + 1, m =>
      match m.wave with
      | [] => m
      | wave => spread bound (wave.foldl expand { m with wave := [] })

/-- Marks everything that the roots lead to. -/
def run (cells : Array Entry) (roots : List Ref) : Marking :=
  let first := roots.foldl visit ⟨cells, [], 0⟩
  spread (first.cells.size + 1) first

end Marking

/-- Progress of sweeping. -/
structure Sweeping where
  cells : Array Entry
  freeHead : Ref
  freeCount : Nat
  cycle : Cycle

namespace Sweeping

/-- Sweeps one slot. -/
def visit (s : Sweeping) (slot : Nat) : Sweeping :=
  match s.cells[slot]? with
  | none => s
  | some entry =>
      if entry.cell.isFree then s
      else if entry.marked then
        { s with
          cells := s.cells.modify slot fun e => { e with marked := false }
          cycle := s.cycle.survivor entry.cell }
      else
        let head := s.freeHead
        { cells := s.cells.modify slot fun e => { e with cell := .free head }
          freeHead := .ofSlot slot
          freeCount := s.freeCount + 1
          cycle := { s.cycle with freed := s.cycle.freed + 1 } }

/-- Sweeps a number of slots in ascending order, starting at `slot`. -/
def run : Nat → Nat → Sweeping → Sweeping
  | 0, _, s => s
  | count + 1, slot, s => run count (slot + 1) (s.visit slot)

end Sweeping

/-- Runs a full cycle from the given roots. -/
def collect (h : Heap) (roots : List Ref) : Cycle × Heap :=
  match h with
  | ⟨cells, arenaSize, arenaSize_pos, maxArenas, freeHead, freeCount, _, threshold, enabled,
      index, allocations, _⟩ =>
      let marking := Marking.run cells roots
      let swept := Sweeping.run marking.cells.size 0
        { cells := marking.cells
          freeHead := freeHead
          freeCount := freeCount
          cycle := ⟨index, roots.length, marking.count, 0, 0, []⟩ }
      (swept.cycle,
        ⟨swept.cells, arenaSize, arenaSize_pos, maxArenas, swept.freeHead, swept.freeCount, 0,
          threshold, enabled, index + 1, allocations, some swept.cycle⟩)

end Heap

end LispMachine
