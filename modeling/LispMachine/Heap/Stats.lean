import LispMachine.Cell

/-!
# Heap statistics

Occupancy and lifetime counters of a heap, and the figures of one collection
cycle.
-/

namespace LispMachine

/-- Figures of one collection cycle. Survivors other than pairs are counted by
    tag, in the order in which the first survivor of a tag stands in the heap. -/
structure Cycle where
  index : Nat
  roots : Nat
  marked : Nat
  freed : Nat
  pairs : Nat
  survivors : List (Tag × Nat)
deriving DecidableEq

namespace Cycle

/-- Adds one to the count of a tag, which joins at the end when it is new. -/
def tally (tag : Tag) : List (Tag × Nat) → List (Tag × Nat)
  | [] => [(tag, 1)]
  | (other, count) :: rest =>
      if other = tag then (other, count + 1) :: rest else (other, count) :: tally tag rest

/-- Counts one more survivor. -/
def survivor (cycle : Cycle) (cell : Cell) : Cycle :=
  match cell.tag? with
  | none => { cycle with pairs := cycle.pairs + 1 }
  | some tag => { cycle with survivors := tally tag cycle.survivors }

end Cycle

/-- Occupancy and lifetime counters of a heap. -/
structure HeapStats where
  arenas : Nat
  capacity : Nat
  live : Nat
  free : Nat
  allocations : Nat
  collections : Nat
  lastFreed : Nat
deriving DecidableEq

namespace HeapStats

/-- One line of heap statistics. -/
def summary (s : HeapStats) : String :=
  s!"{s.live} live / {s.capacity} cells in {s.arenas} arenas " ++
    s!"({s.collections} collections, {s.lastFreed} freed last cycle)"

/-- Heap statistics as an indented JSON object. -/
def json (s : HeapStats) : String :=
  let field (name : String) (value : Nat) : String := s!"  \"{name}\": {value}"
  "\x7b\n" ++
    ",\n".intercalate
      [field "arenas" s.arenas, field "capacity" s.capacity, field "live" s.live,
        field "free" s.free, field "total_allocations" s.allocations,
        field "total_collections" s.collections, field "last_freed" s.lastFreed] ++
    "\n\x7d"

end HeapStats

end LispMachine
