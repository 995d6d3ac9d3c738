import LispMachine.Config
import LispMachine.Heap.Stats

/-!
# The heap

Cells live in arenas of equal size, kept one after the other in a single array.
Free cells form a list threaded through the cells themselves. A cell is taken
from the front of that list; a new arena is added only when the list is empty.
-/

namespace LispMachine

/-- Why a cell could not be allocated. -/
inductive HeapError where
  | exhausted (arenas : Nat)
deriving DecidableEq

/-- The wording of an allocation failure. -/
def HeapError.message : HeapError → String
  | .exhausted arenas => s!"heap exhausted: {arenas} arenas in use and growth is not allowed"

/-- A cell heap with its allocator and its counters. -/
structure Heap where
  cells : Array Entry
  arenaSize : Nat
  arenaSize_pos : 0 < arenaSize
  maxArenas : Option Nat
  freeHead : Ref
  freeCount : Nat
  sinceCycle : Nat
  threshold : Nat
  enabled : Bool
  collections : Nat
  allocations : Nat
  lastCycle : Option Cycle

namespace Heap

/-- A heap without arenas. A size of zero acts as one. -/
def ofArenaSize (size : Nat) : Heap where
  cells := #[]
  arenaSize := max size 1
  arenaSize_pos := by omega
  maxArenas := none
  freeHead := .null
  freeCount := 0
  sinceCycle := 0
  threshold := 0
  enabled := true
  collections := 0
  allocations := 0
  lastCycle := none

/-- A heap without arenas under the given settings. -/
def ofConfig (config : Config) : Heap :=
  { ofArenaSize config.arenaSize with
    maxArenas := config.maxArenas
    enabled := config.collects
    threshold := config.gcThreshold }

instance : Inhabited Heap := ⟨ofArenaSize 1024⟩

/-! ## Access -/

/-- The slot behind a handle; none for the empty list and beyond the heap. -/
def entry? (h : Heap) (r : Ref) : Option Entry :=
  match r.slot? with
  | none => none
  | some slot => h.cells[slot]?

/-- The cell behind a handle. -/
def cell? (h : Heap) (r : Ref) : Option Cell :=
  match h.entry? r with
  | none => none
  | some entry => some entry.cell

/-- The scalar behind a handle. -/
def scalar? (h : Heap) (r : Ref) : Option Scalar :=
  match h.cell? r with
  | some (.scalar s) => some s
  | _ => none

/-- Both halves of a pair. -/
def pair? (h : Heap) (r : Ref) : Option (Ref × Ref) :=
  match h.cell? r with
  | some (.pair car cdr) => some (car, cdr)
  | _ => none

/-- First half of a pair. -/
def car? (h : Heap) (r : Ref) : Option Ref := (h.pair? r).map Prod.fst

/-- Second half of a pair. -/
def cdr? (h : Heap) (r : Ref) : Option Ref := (h.pair? r).map Prod.snd

/-- Value of an integer cell. -/
def integer? (h : Heap) (r : Ref) : Option Int64 :=
  match h.scalar? r with
  | some (.integer value) => some value
  | _ => none

/-- Name of a symbol cell. -/
def symbol? (h : Heap) (r : Ref) : Option String :=
  match h.scalar? r with
  | some (.symbol name) => some name
  | _ => none

/-- Whether the handle names a symbol cell. -/
def isSymbol (h : Heap) (r : Ref) : Bool := (h.symbol? r).isSome

/-- Code of a function or macro cell. -/
def code? (h : Heap) (r : Ref) : Option Code :=
  match h.scalar? r with
  | some s => s.code?
  | none => none

/-- Tag of a value that is not a pair; the empty list has one too. -/
def tag? (h : Heap) (r : Ref) : Option Tag :=
  if r.isNull then some .null
  else
    match h.cell? r with
    | some cell => cell.tag?
    | none => none

/-- Whether the handle names a cell of the free list. -/
def isFree (h : Heap) (r : Ref) : Bool :=
  match h.cell? r with
  | some cell => cell.isFree
  | none => false

/-- Whether the handle names a marked cell. -/
def isMarked (h : Heap) (r : Ref) : Bool :=
  match h.entry? r with
  | some entry => entry.marked
  | none => false

/-- Walks a list with a bound on the number of pairs, keeping the items found so
    far, newest first. -/
def walk (h : Heap) : Nat → Ref → List Ref → Option (List Ref)
  | 0, _, _ => none
  | bound + 1, r, found =>
      if r.isNull then some found.reverse
      else
        match h.pair? r with
        | some (car, cdr) => h.walk bound cdr (car :: found)
        | none => none

/-- The items of a proper list; none when the chain does not end in the empty
    list. A chain without repetition has fewer pairs than the heap has cells. -/
def items? (h : Heap) (list : Ref) : Option (List Ref) :=
  h.walk (h.cells.size + 1) list []

/-- Whether this many pairs follow one another from a handle on. -/
def passes (h : Heap) : Nat → Ref → Bool
  | 0, _ => true
  | count + 1, r =>
      match h.pair? r with
      | some (_, cdr) => h.passes count cdr
      | none => false

/-- Whether a list comes back to where it was, so that reading it has no end: it passes
    more pairs than the heap has cells. -/
def isEndless (h : Heap) (list : Ref) : Bool := h.passes (h.cells.size + 1) list

/-! ## Counters -/

/-- Number of cells, free ones included. -/
def capacity (h : Heap) : Nat := h.cells.size

/-- Number of arenas. -/
def arenas (h : Heap) : Nat := h.cells.size / h.arenaSize

/-- Number of cells in use. -/
def live (h : Heap) : Nat := h.capacity - h.freeCount

/-- Whether collection is enabled and enough cells were allocated for a cycle. -/
def isDue (h : Heap) : Bool := h.enabled && h.threshold ≤ h.sinceCycle

/-- The heap's counters. -/
def stats (h : Heap) : HeapStats where
  arenas := h.arenas
  capacity := h.capacity
  live := h.live
  free := h.freeCount
  allocations := h.allocations
  collections := h.collections
  lastFreed :=
    match h.lastCycle with
    | some cycle => cycle.freed
    | none => 0

/-! ## Allocation -/

/-- The cells of a new arena that starts at slot `base`: each is linked to the
    next, and the last to `after`. -/
def freshArena (base size : Nat) (after : Ref) : Array Entry :=
  Array.ofFn fun i : Fin size =>
    ⟨.free (if i.val + 1 < size then .ofSlot (base + i.val + 1) else after), false⟩

/-- Whether the arena limit allows one more arena. -/
def mayGrow (h : Heap) : Bool :=
  match h.maxArenas with
  | some limit => h.arenas < limit
  | none => true

/-- Adds an arena in front of the free list, or fails and changes nothing. -/
def grow : EStateM HeapError Heap Unit := fun h =>
  if h.mayGrow then
    let base := h.cells.size
    let arena := freshArena base h.arenaSize h.freeHead
    .ok () { h with
      cells := h.cells ++ arena
      freeHead := .ofSlot base
      freeCount := h.freeCount + h.arenaSize }
  else .error (.exhausted h.arenas) h

/-- Takes the first cell of the free list and fills it. -/
def place (cell : Cell) : EStateM HeapError Heap Ref := fun h =>
  match h.freeHead.slot?, h.cell? h.freeHead with
  | some slot, some old =>
      let head := h.freeHead
      let next :=
        match old with
        | .free next => next
        | _ => .null
      .ok head { h with
        cells := h.cells.setIfInBounds slot ⟨cell, false⟩
        freeHead := next
        freeCount := h.freeCount - 1
        sinceCycle := h.sinceCycle + 1
        allocations := h.allocations + 1 }
  | _, _ => .error (.exhausted 0) h

/-- Allocates a cell, adding an arena when no cell is free. -/
def alloc (cell : Cell) : EStateM HeapError Heap Ref := do
  if (← get).freeHead.isNull then grow
  place cell

/-- Allocates a pair. -/
def cons (car cdr : Ref) : EStateM HeapError Heap Ref := alloc (.pair car cdr)

/-- Allocates a scalar. -/
def allocScalar (s : Scalar) : EStateM HeapError Heap Ref := alloc (.scalar s)

/-- Allocates an integer. -/
def integer (value : Int64) : EStateM HeapError Heap Ref := allocScalar (.integer value)

/-- Builds a list from its last item to its first. -/
def listWithTail (items : List Ref) (tail : Ref) : EStateM HeapError Heap Ref :=
  items.foldrM (fun item rest => cons item rest) tail

/-- Builds a proper list. -/
def list (items : List Ref) : EStateM HeapError Heap Ref := listWithTail items .null

/-! ## Mutation -/

/-- Replaces the slot behind a handle. -/
def modifyEntry (h : Heap) (r : Ref) (f : Entry → Entry) : Heap :=
  match r.slot? with
  | none => h
  | some slot => { h with cells := h.cells.modify slot f }

/-- Sets the mark of a cell. -/
def mark (h : Heap) (r : Ref) : Heap := h.modifyEntry r fun e => { e with marked := true }

/-- Clears the mark of a cell. -/
def unmark (h : Heap) (r : Ref) : Heap := h.modifyEntry r fun e => { e with marked := false }

/-- Overwrites a cell in use with a scalar; its mark comes out clear. The result
    says whether there was such a cell. -/
def setScalar (h : Heap) (r : Ref) (s : Scalar) : Bool × Heap :=
  match h.cell? r with
  | some (.free _) => (false, h)
  | none => (false, h)
  | some _ => (true, h.modifyEntry r fun _ => ⟨.scalar s, false⟩)

/-- Replaces the first half of a pair. -/
def setCar (h : Heap) (r value : Ref) : Bool × Heap :=
  match h.pair? r with
  | some (_, cdr) => (true, h.modifyEntry r fun e => { e with cell := .pair value cdr })
  | none => (false, h)

/-- Replaces the second half of a pair. -/
def setCdr (h : Heap) (r value : Ref) : Bool × Heap :=
  match h.pair? r with
  | some (car, _) => (true, h.modifyEntry r fun e => { e with cell := .pair car value })
  | none => (false, h)

end Heap

end LispMachine
