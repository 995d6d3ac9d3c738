import Mathlib.Data.List.Perm.Subperm
import Mathlib.Data.List.Nodup
import LispMachine.Proofs.Heap.Collect
import LispMachine.Proofs.Machine.Growth

/-!
# Every cell is accounted for

A heap is changed by allocations, by writes to cells and marks, by a new limit
on the number of arenas and by collections, in any order and with any arguments,
and each of them may fail. Whatever is done, the free list stays sound, the
counters agree with it, and an allocation fails only in a heap that is full.
-/

namespace LispMachine

namespace Heap

/-! ## The counters -/

section

variable {h : Heap}

theorem WellFormed.size_eq (wf : h.WellFormed) : h.cells.size = h.arenas * h.arenaSize :=
  (Nat.div_mul_cancel wf.arenas).symm

theorem WellFormed.freeCount_le (wf : h.WellFormed) : h.freeCount ≤ h.capacity := by
  obtain ⟨slots, _, distinct, exact_, count⟩ := wf.free
  have inside : slots ⊆ List.range h.cells.size := by
    intro slot member
    obtain ⟨entry, found, _⟩ := (exact_ slot).1 member
    exact List.mem_range.2 (Array.getElem?_eq_some_iff.1 found).1
  have bound := (distinct.subperm inside).length_le
  rwa [List.length_range, ← count] at bound

theorem WellFormed.live_add_freeCount (wf : h.WellFormed) : h.live + h.freeCount = h.capacity :=
  Nat.sub_add_cancel wf.freeCount_le

theorem WellFormed.freeHead_eq_null_iff (wf : h.WellFormed) :
    h.freeHead = .null ↔ h.freeCount = 0 := by
  obtain ⟨slots, chain, _, _, count⟩ := wf.free
  rw [count, List.length_eq_zero_iff]
  generalize h.freeHead = head at chain
  cases chain with
  | nil => simp
  | cons _ _ => simp [Ref.ofSlot_ne_null]

theorem mayGrow_eq_false_iff :
    h.mayGrow = false ↔ ∃ limit, h.maxArenas = some limit ∧ limit ≤ h.arenas := by
  unfold mayGrow
  cases h.maxArenas with
  | none => simp
  | some limit => simp

/-- Every cell is in use, and the limit does not allow one more arena. -/
def IsFull (h : Heap) : Prop :=
  h.live = h.capacity ∧ ∃ limit, h.maxArenas = some limit ∧ limit ≤ h.arenas

theorem WellFormed.isFull_iff (wf : h.WellFormed) :
    h.IsFull ↔ h.freeHead = .null ∧ h.mayGrow = false := by
  have sum := wf.live_add_freeCount
  rw [IsFull, mayGrow_eq_false_iff, wf.freeHead_eq_null_iff]
  refine and_congr_left fun _ => ?_
  omega

end

/-! ## Allocation -/

/-- The heap that an allocation takes a cell from: with a new arena if no cell
    is free. -/
def supplied (h : Heap) : Heap := if h.freeHead.isNull then h.grown else h

/-- What an allocation that succeeds does: the head of the free list, after
    growth if there was none, is a free cell at `slot`; it was free before or lies
    in the arena just added; it holds the contents now; and no other slot has
    changed. -/
structure Takes (h : Heap) (cell : Cell) (slot : Nat) (h' : Heap) : Prop where
  head : h.supplied.freeHead = .ofSlot slot
  free : FreeAt h.supplied.cells slot
  place : FreeAt h.cells slot ∨
    h.cells.size ≤ slot ∧ slot < h.cells.size + h.arenaSize ∧
      h'.cells.size = h.cells.size + h.arenaSize
  filled : h'.cells[slot]? = some ⟨cell, false⟩
  others : ∀ other, other ≠ slot → h'.cells[other]? = h.supplied.cells[other]?
  kept : ∀ other, other ≠ slot → other < h.cells.size → h'.cells[other]? = h.cells[other]?
  balance : h'.allocations + h'.freeCount + h.capacity =
    h.allocations + h.freeCount + h'.capacity

/-- Allocation in any heap with a sound free list: a free cell is taken, or the
    heap is full and stays exactly as it is. -/
inductive Allocates (h : Heap) (cell : Cell) : EStateM.Result HeapError Heap Ref → Prop where
  | takes {slot : Nat} {h' : Heap} : ¬ h.IsFull → h.Takes cell slot h' →
      Allocates h cell (.ok (.ofSlot slot) h')
  | full : h.IsFull → Allocates h cell (.error (.exhausted h.arenas) h)

section

variable {h : Heap} {cell : Cell}

theorem supplied_getElem?_old {slot : Nat} (old : slot < h.cells.size) :
    h.supplied.cells[slot]? = h.cells[slot]? := by
  unfold supplied
  split
  · exact grown_getElem?_old old
  · rfl

theorem freeAt_supplied {slot : Nat} (free : FreeAt h.supplied.cells slot) :
    FreeAt h.cells slot ∨ h.cells.size ≤ slot ∧ slot < h.cells.size + h.arenaSize ∧
      h.supplied.cells.size = h.cells.size + h.arenaSize := by
  unfold supplied at free ⊢
  split at free
  · next empty =>
      rw [if_pos empty, grown_size]
      rcases (freeAt_grown slot).1 free with before | ⟨low, high⟩
      · exact Or.inl before
      · exact Or.inr ⟨low, high, rfl⟩
  · exact Or.inl free

/-- A new arena adds as many free cells as it adds cells. -/
theorem supplied_balance (h : Heap) :
    h.supplied.allocations + h.supplied.freeCount + h.capacity =
      h.allocations + h.freeCount + h.supplied.capacity := by
  unfold supplied
  split
  · simp only [capacity, grown_size]
    simp only [grown]
    omega
  · rfl

theorem WellFormed.supplied (wf : h.WellFormed) : h.supplied.WellFormed := by
  unfold Heap.supplied
  split
  · next empty => exact wf.grown ((Ref.isNull_iff _).1 empty)
  · exact wf

theorem supplied_head (h : Heap) : h.supplied.freeHead ≠ .null := by
  unfold supplied
  split
  · exact Ref.ofSlot_ne_null _
  · next some_ => simpa [Ref.isNull_iff] using some_

theorem takes_placed {slot : Nat} {next : Ref} {marked : Bool} (wf : h.WellFormed)
    (head : h.supplied.freeHead = .ofSlot slot)
    (found : h.supplied.cells[slot]? = some ⟨.free next, marked⟩) :
    h.Takes cell slot (h.supplied.placed slot next cell) := by
  obtain ⟨inside, _⟩ := Array.getElem?_eq_some_iff.1 found
  have free : FreeAt h.supplied.cells slot := ⟨_, found, rfl⟩
  have others : ∀ other, other ≠ slot →
      (h.supplied.placed slot next cell).cells[other]? = h.supplied.cells[other]? := by
    intro other different
    simp [placed, Array.getElem?_setIfInBounds_ne (Ne.symm different)]
  refine ⟨head, free, ?_, by simp [placed, inside], others, ?_, ?_⟩
  · simpa [placed] using freeAt_supplied free
  · intro other different old
    rw [others other different, supplied_getElem?_old old]
  · have positive : h.supplied.freeCount ≠ 0 :=
      (not_congr wf.supplied.freeHead_eq_null_iff).1 (supplied_head h)
    have balance := supplied_balance h
    simp only [placed, capacity, Array.size_setIfInBounds] at balance ⊢
    omega

theorem alloc_allocates (wf : h.WellFormed) (cell : Cell) : h.Allocates cell (alloc cell h) := by
  obtain ⟨slot, next, marked, head, found⟩ := wf.supplied.head_cases (supplied_head h)
  have takes : h.Takes cell slot (h.supplied.placed slot next cell) := takes_placed wf head found
  have placing := place_eq cell head found
  have full_iff := wf.isFull_iff
  rw [alloc_eq]
  by_cases empty : h.freeHead = .null
  · have isNull := (Ref.isNull_iff _).2 empty
    rw [if_pos isNull]
    cases room : h.mayGrow with
    | true =>
        rw [if_pos rfl]
        rw [supplied, if_pos isNull] at placing
        rw [placing]
        refine .takes (fun full => ?_) ?_
        · rw [(full_iff.1 full).2] at room
          cases room
        · rwa [supplied, if_pos isNull] at takes
    | false => exact .full (full_iff.2 ⟨empty, room⟩)
  · have notNull : ¬ h.freeHead.isNull = true := by rwa [Ref.isNull_iff]
    rw [if_neg notNull]
    rw [supplied, if_neg notNull] at placing
    rw [placing]
    refine .takes (fun full => empty (full_iff.1 full).1) ?_
    rwa [supplied, if_neg notNull] at takes

/-- Read off what an allocation does: it fails exactly in a full heap. -/
theorem Allocates.fails_iff {result : EStateM.Result HeapError Heap Ref}
    (allocates : h.Allocates cell result) :
    (∃ e h', result = .error e h') ↔ h.IsFull := by
  cases allocates with
  | takes notFull _ =>
      refine ⟨?_, fun full => absurd full notFull⟩
      rintro ⟨_, _, eq⟩
      cases eq
  | full full => exact ⟨fun _ => full, fun _ => ⟨_, _, rfl⟩⟩

end

/-! ## Operations -/

/-- What can be done to a heap, with any arguments. -/
inductive Operation where
  | alloc (cell : Cell) (used : cell.isFree = false)
  | cons (car cdr : Ref)
  | integer (value : Int64)
  | list (items : List Ref)
  | listWithTail (items : List Ref) (tail : Ref)
  | setScalar (r : Ref) (s : Scalar)
  | setCar (r value : Ref)
  | setCdr (r value : Ref)
  | mark (r : Ref)
  | unmark (r : Ref)
  | setMaxArenas (limit : Option Nat)
  | collect (roots : List Ref)

/-- The heap after an operation, whether it succeeds or fails. -/
def perform (h : Heap) : Operation → Heap
  | .alloc cell _ => after (alloc cell h)
  | .cons car cdr => after (cons car cdr h)
  | .integer value => after (integer value h)
  | .list items => after (list items h)
  | .listWithTail items tail => after (listWithTail items tail h)
  | .setScalar r s => (h.setScalar r s).2
  | .setCar r value => (h.setCar r value).2
  | .setCdr r value => (h.setCdr r value).2
  | .mark r => h.mark r
  | .unmark r => h.unmark r
  | .setMaxArenas limit => { h with maxArenas := limit }
  | .collect roots => (h.collect roots).2

/-- The number of cells that an operation frees: what a collection reports. -/
def released (h : Heap) : Operation → Nat
  | .collect roots => (h.collect roots).1.freed
  | _ => 0

/-- The heap after a sequence of operations. -/
def performAll (h : Heap) (operations : List Operation) : Heap := operations.foldl perform h

/-- The number of cells that all collections of a sequence free together. -/
def releasedByAll (h : Heap) : List Operation → Nat
  | [] => 0
  | operation :: rest => h.released operation + (h.perform operation).releasedByAll rest

/-- A change of the heap that the counters agree with: `freed` cells came back,
    and every other change of the number of free cells is an allocation or a new
    arena. -/
structure Accounts (h : Heap) (freed : Nat) (h' : Heap) : Prop where
  wellFormed : h'.WellFormed
  balance : h'.allocations + h'.freeCount + h.capacity =
    h.allocations + h.freeCount + h'.capacity + freed

section

variable {h h' h'' : Heap}

theorem Accounts.refl (wf : h.WellFormed) : h.Accounts 0 h := ⟨wf, rfl⟩

theorem Accounts.trans {freed freed' : Nat} (first : h.Accounts freed h')
    (second : h'.Accounts freed' h'') : h.Accounts (freed + freed') h'' := by
  refine ⟨second.wellFormed, ?_⟩
  have := first.balance
  have := second.balance
  omega

theorem alloc_accounts (wf : h.WellFormed) {cell : Cell} (used : cell.isFree = false) :
    h.Accounts 0 (after (alloc cell h)) := by
  have allocates := alloc_allocates wf cell
  cases done : alloc cell h with
  | ok r h' =>
      rw [done] at allocates
      cases allocates with
      | takes _ takes => exact ⟨(alloc_ok wf used done).wellFormed, takes.balance⟩
  | error e h' =>
      rw [alloc_error wf used done]
      exact .refl wf

theorem listWithTail_accounts (wf : h.WellFormed) (items : List Ref) (tail : Ref) :
    h.Accounts 0 (after (listWithTail items tail h)) := by
  induction items with
  | nil => exact .refl wf
  | cons item items ih =>
      rw [listWithTail_cons]
      cases done : listWithTail items tail h with
      | error e h' =>
          rw [done] at ih
          exact ih
      | ok rest h' =>
          rw [done] at ih
          exact ih.trans (alloc_accounts ih.wellFormed rfl)

theorem Writes.accounts (writes : h.Writes h') (wf : h.WellFormed) : h.Accounts 0 h' := by
  refine ⟨writes.wellFormed wf, ?_⟩
  cases writes with
  | none => rfl
  | @cell r f _ _ _ =>
      rcases r.null_or_ofSlot with rfl | ⟨slot, rfl⟩
      · rfl
      · simp [modifyEntry, capacity]

/-- A change of marks, of free cells or of others. -/
theorem modifyMark_accounts (wf : h.WellFormed) (r : Ref) (marked : Bool) :
    h.Accounts 0 (h.modifyEntry r fun entry => { entry with marked }) := by
  rcases r.null_or_ofSlot with rfl | ⟨slot, rfl⟩
  · exact .refl wf
  · have same : SameCells h.cells
        (h.modifyEntry (.ofSlot slot) fun entry => { entry with marked }).cells := by
      intro other
      rw [modifyEntry_getElem?]
      split
      · simp [Option.map_map, Function.comp_def]
      · rfl
    exact ⟨wf.sameCells same rfl rfl rfl, by simp [modifyEntry, capacity]⟩

theorem collect_accounts (wf : h.WellFormed) (roots : List Ref) :
    h.Accounts (h.collect roots).1.freed (h.collect roots).2 := by
  refine ⟨wellFormed_collect wf, ?_⟩
  have count := collect_count h roots
  have size : (h.collect roots).2.capacity = h.capacity := collect_size h roots
  have allocations : (h.collect roots).2.allocations = h.allocations := rfl
  omega

/-- One operation keeps the free list sound and the counters in agreement. -/
theorem perform_accounts (wf : h.WellFormed) (operation : Operation) :
    h.Accounts (h.released operation) (h.perform operation) := by
  cases operation with
  | alloc cell used => exact alloc_accounts wf used
  | cons car cdr => exact alloc_accounts wf rfl
  | integer value => exact alloc_accounts wf rfl
  | list items => exact listWithTail_accounts wf items .null
  | listWithTail items tail => exact listWithTail_accounts wf items tail
  | setScalar r s => exact (setScalar_writes h r s).accounts wf
  | setCar r value => exact (setCar_writes h r value).accounts wf
  | setCdr r value => exact (setCdr_writes h r value).accounts wf
  | mark r => exact modifyMark_accounts wf r true
  | unmark r => exact modifyMark_accounts wf r false
  | setMaxArenas limit => exact ⟨⟨wf.arenas, wf.free⟩, rfl⟩
  | collect roots => exact collect_accounts wf roots

theorem performAll_accounts (wf : h.WellFormed) (operations : List Operation) :
    h.Accounts (h.releasedByAll operations) (h.performAll operations) := by
  induction operations generalizing h with
  | nil => exact .refl wf
  | cons operation rest ih =>
      have first := perform_accounts wf operation
      exact first.trans (ih first.wellFormed)

end

/-- A heap that nothing was done to yet. -/
inductive Fresh : Heap → Prop where
  | ofArenaSize (size : Nat) : Fresh (ofArenaSize size)
  | ofConfig (config : Config) : Fresh (ofConfig config)

theorem Fresh.wellFormed {h : Heap} (fresh : h.Fresh) : h.WellFormed := by
  cases fresh with
  | ofArenaSize size => exact wellFormed_ofArenaSize size
  | ofConfig config => exact wellFormed_ofConfig config

theorem Fresh.counters {h : Heap} (fresh : h.Fresh) :
    h.allocations = 0 ∧ h.freeCount = 0 ∧ h.capacity = 0 := by
  cases fresh <;> exact ⟨rfl, rfl, rfl⟩

/-- Whatever is done to a fresh heap, in any order, with any arguments and
    whether it succeeds or fails: the arenas are whole; the chain of the free list
    ends in the empty list and passes exactly the free cells, each once; the
    counters agree with it; an allocation takes a free cell, touches no other and
    fails exactly when the heap is full, which it leaves as it was; and every
    allocation is either live or was freed by a collection. -/
theorem every_cell_is_accounted_for (start : Heap) (fresh : start.Fresh)
    (operations : List Operation) :
    let h := start.performAll operations
    (h.cells.size = h.arenas * h.arenaSize ∧
      (∃ slots : List Nat, FreeChain h.cells h.freeHead slots ∧ slots.Nodup ∧
        (∀ slot, slot ∈ slots ↔ FreeAt h.cells slot) ∧ h.freeCount = slots.length) ∧
      h.freeCount ≤ h.capacity ∧ h.live + h.freeCount = h.capacity) ∧
    (∀ cell : Cell, cell.isFree = false →
      h.Allocates cell (alloc cell h) ∧
      ((∃ e h', alloc cell h = .error e h') ↔ h.IsFull)) ∧
    h.allocations = h.live + start.releasedByAll operations := by
  intro h
  have account := performAll_accounts fresh.wellFormed operations
  have wf : h.WellFormed := account.wellFormed
  have sum := wf.live_add_freeCount
  refine ⟨⟨wf.size_eq, wf.free, wf.freeCount_le, sum⟩, ?_, ?_⟩
  · intro cell _
    have allocates := alloc_allocates wf cell
    exact ⟨allocates, allocates.fails_iff⟩
  · obtain ⟨allocations, freeCount, capacity⟩ := fresh.counters
    have balance : h.allocations + h.freeCount + start.capacity =
      start.allocations + start.freeCount + h.capacity + start.releasedByAll operations :=
      account.balance
    omega

/-- Three cells, with marks on one of them and on a free cell; a collection that
    frees one cell and keeps the marked one; a write to the freed cell; and a list
    that the limit cuts short. -/
def sampleOperations : List Operation :=
  [.cons .null .null, .integer 5, .cons ⟨1⟩ ⟨2⟩, .mark ⟨3⟩, .mark ⟨4⟩, .setMaxArenas (some 2),
    .collect [⟨1⟩], .setScalar ⟨2⟩ (.integer 7), .list [⟨1⟩, ⟨1⟩, ⟨1⟩, ⟨1⟩]]

theorem sampleOperations_are_accounted_for :
    let h := (ofArenaSize 2).performAll sampleOperations
    (ofArenaSize 2).Fresh ∧
    (h.allocations = 5 ∧ h.live = 4 ∧ (ofArenaSize 2).releasedByAll sampleOperations = 1) ∧
    h.allocations = h.live + (ofArenaSize 2).releasedByAll sampleOperations ∧
    ∃ e h', alloc (.pair .null .null) h = .error e h' := by
  intro h
  obtain ⟨_, law, sum⟩ :=
    every_cell_is_accounted_for (ofArenaSize 2) (.ofArenaSize 2) sampleOperations
  have full : h.IsFull := ⟨by decide +kernel, 2, by decide +kernel, by decide +kernel⟩
  exact ⟨.ofArenaSize 2, by decide +kernel, sum, (law (.pair .null .null) rfl).2.2 full⟩

end Heap

end LispMachine
