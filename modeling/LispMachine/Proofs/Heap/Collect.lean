import LispMachine.Proofs.Heap.Marking

/-!
# Collection is exact

A cycle keeps exactly the cells in use that the roots lead to, with their
contents, and puts all other cells in front of the free list. It keeps the free
list sound whatever marks there are before; to be exact it needs a heap whose
cells in use carry no mark, and it hands such a heap back. Fresh heaps are of
this kind, and allocation and mutation keep them so.
-/

namespace LispMachine

namespace Heap

namespace Sweeping

/-! ## One slot -/

/-- A cell in use without a mark: the sweep frees it. -/
def dead (cells : Array Entry) (slot : Nat) : Bool :=
  match cells[slot]? with
  | some entry => !entry.cell.isFree && !entry.marked
  | none => false

/-- What the sweep leaves of a slot that it does not free. -/
theorem visit_kept {s : Sweeping} {slot : Nat} (alive : dead s.cells slot = false) :
    (s.visit slot).cells[slot]? =
      (s.cells[slot]?).map (fun entry =>
        if entry.cell.isFree then entry else { entry with marked := false }) ∧
    (s.visit slot).freeHead = s.freeHead ∧ (s.visit slot).freeCount = s.freeCount := by
  cases found : s.cells[slot]? with
  | none => simp [visit, found]
  | some entry =>
      cases free : entry.cell.isFree with
      | true => simp [visit, found, free]
      | false =>
          have marked : entry.marked = true := by simpa [dead, found, free] using alive
          simp [visit, found, free, marked, Array.getElem?_modify]

theorem visit_freed {s : Sweeping} {slot : Nat} (dies : dead s.cells slot = true) :
    (s.visit slot).cells[slot]? = some ⟨.free s.freeHead, false⟩ ∧
    (s.visit slot).freeHead = .ofSlot slot ∧
    (s.visit slot).freeCount = s.freeCount + 1 := by
  cases found : s.cells[slot]? with
  | none => simp [dead, found] at dies
  | some entry =>
      simp only [dead, found, Bool.and_eq_true, Bool.not_eq_true'] at dies
      simp [visit, found, dies.1, dies.2, Array.getElem?_modify]

theorem visit_other (s : Sweeping) {slot other : Nat} (different : other ≠ slot) :
    (s.visit slot).cells[other]? = s.cells[other]? := by
  have apart : slot ≠ other := Ne.symm different
  unfold visit
  split
  · rfl
  · split
    · rfl
    · split <;> simp [Array.getElem?_modify, apart]

theorem visit_size (s : Sweeping) (slot : Nat) : (s.visit slot).cells.size = s.cells.size := by
  unfold visit
  split
  · rfl
  · split
    · rfl
    · split <;> simp

theorem dead_visit_other (s : Sweeping) {slot other : Nat} (different : other ≠ slot) :
    dead (s.visit slot).cells other = dead s.cells other := by
  simp only [dead, visit_other s different]

/-! ## All slots -/

theorem run_size (count slot : Nat) (s : Sweeping) :
    (run count slot s).cells.size = s.cells.size := by
  induction count generalizing slot s with
  | zero => rfl
  | succ count ih => rw [run, ih, visit_size]

theorem run_outside (count slot : Nat) (s : Sweeping) {other : Nat}
    (outside : other < slot ∨ slot + count ≤ other) :
    (run count slot s).cells[other]? = s.cells[other]? := by
  induction count generalizing slot s with
  | zero => rfl
  | succ count ih =>
      rw [run, ih (slot + 1) _ (by omega), visit_other s (by omega)]

theorem run_kept (count slot : Nat) (s : Sweeping) {other : Nat}
    (inside : slot ≤ other ∧ other < slot + count) (alive : dead s.cells other = false) :
    (run count slot s).cells[other]? =
      (s.cells[other]?).map (fun entry =>
        if entry.cell.isFree then entry else { entry with marked := false }) := by
  induction count generalizing slot s with
  | zero => omega
  | succ count ih =>
      rw [run]
      by_cases same : other = slot
      · subst same
        rw [run_outside count _ _ (by omega)]
        exact (visit_kept alive).1
      · rw [ih (slot + 1) _ (by omega) (by rw [dead_visit_other s same]; exact alive),
          visit_other s same]

theorem run_freed (count slot : Nat) (s : Sweeping) {other : Nat}
    (inside : slot ≤ other ∧ other < slot + count) (dies : dead s.cells other = true) :
    ∃ next, (run count slot s).cells[other]? = some ⟨.free next, false⟩ := by
  induction count generalizing slot s with
  | zero => omega
  | succ count ih =>
      rw [run]
      by_cases same : other = slot
      · subst same
        rw [run_outside count _ _ (by omega)]
        exact ⟨_, (visit_freed dies).1⟩
      · exact ih (slot + 1) _ (by omega) (by rw [dead_visit_other s same]; exact dies)

/-- The slots that a sweep of `count` slots from `slot` on frees, last first. -/
def freedSlots (cells : Array Entry) (slot count : Nat) : List Nat :=
  ((List.range' slot count).filter (dead cells)).reverse

theorem mem_freedSlots {cells : Array Entry} {slot count other : Nat} :
    other ∈ freedSlots cells slot count ↔
      (slot ≤ other ∧ other < slot + count) ∧ dead cells other = true := by
  simp [freedSlots, List.mem_range'_1]

theorem freedSlots_succ {s : Sweeping} {slot count : Nat} :
    freedSlots s.cells slot (count + 1) =
      freedSlots (s.visit slot).cells (slot + 1) count ++
        if dead s.cells slot then [slot] else [] := by
  have later : (List.range' (slot + 1) count).filter (dead (s.visit slot).cells) =
      (List.range' (slot + 1) count).filter (dead s.cells) := by
    apply List.filter_congr
    intro other member
    rw [List.mem_range'_1] at member
    exact dead_visit_other s (by omega)
  rw [freedSlots, freedSlots, later, List.range'_succ, List.filter_cons]
  split <;> simp

/-- The sweep puts what it frees in front of the chain it finds. -/
theorem run_chain (count slot : Nat) (s : Sweeping) {slots : List Nat}
    (chain : FreeChain s.cells s.freeHead slots)
    (apart : ∀ other ∈ slots, slot ≤ other → dead s.cells other = false)
    (plain : ∀ other ∈ slots, ∃ next marked, s.cells[other]? = some ⟨.free next, marked⟩) :
    FreeChain (run count slot s).cells (run count slot s).freeHead
        (freedSlots s.cells slot count ++ slots) ∧
      (run count slot s).freeCount = s.freeCount + (freedSlots s.cells slot count).length := by
  induction count generalizing slot s slots with
  | zero => exact ⟨chain, rfl⟩
  | succ count ih =>
      rw [run, freedSlots_succ]
      cases dies : dead s.cells slot with
      | false =>
          obtain ⟨now, head, number⟩ := visit_kept dies
          have same : ∀ other ∈ slots, (s.visit slot).cells[other]? = s.cells[other]? := by
            intro other member
            by_cases eq : other = slot
            · subst eq
              obtain ⟨next, marked, found⟩ := plain other member
              rw [now, found]
              rfl
            · exact visit_other s eq
          have step := @ih (slot + 1) (s.visit slot) slots
            (by rw [head]; exact chain.frame same) ?_ ?_
          · simpa [number] using step
          · intro other member after
            rw [dead_visit_other s (by omega)]
            exact apart other member (by omega)
          · intro other member
            rw [same other member]
            exact plain other member
      | true =>
          obtain ⟨now, head, number⟩ := visit_freed dies
          have fresh : slot ∉ slots := by
            intro member
            rw [apart slot member (by omega)] at dies
            cases dies
          have same : ∀ other ∈ slots, (s.visit slot).cells[other]? = s.cells[other]? := by
            intro other member
            refine visit_other s ?_
            rintro rfl
            exact fresh member
          have step := @ih (slot + 1) (s.visit slot) (slot :: slots)
            (by rw [head]; exact .cons now (chain.frame same)) ?_ ?_
          · simp only [if_true, List.append_assoc, List.singleton_append, List.length_append,
              List.length_cons, List.length_nil]
            refine ⟨step.1, ?_⟩
            rw [step.2, number]
            omega
          · intro other member after
            rcases List.mem_cons.1 member with rfl | member
            · omega
            · rw [dead_visit_other s (by omega)]
              exact apart other member (by omega)
          · intro other member
            rcases List.mem_cons.1 member with rfl | member
            · exact ⟨_, _, now⟩
            · rw [same other member]
              exact plain other member

theorem visit_count (s : Sweeping) (slot : Nat) :
    s.freeCount + (s.visit slot).cycle.freed = s.cycle.freed + (s.visit slot).freeCount := by
  unfold visit
  split
  · exact Nat.add_comm _ _
  · split
    · exact Nat.add_comm _ _
    · split
      · simp only [Cycle.survivor]
        split <;> exact Nat.add_comm _ _
      · dsimp only
        omega

/-- The report counts what joins the free list. -/
theorem run_count (count slot : Nat) (s : Sweeping) :
    s.freeCount + (run count slot s).cycle.freed = s.cycle.freed + (run count slot s).freeCount := by
  induction count generalizing slot s with
  | zero => exact Nat.add_comm _ _
  | succ count ih =>
      have first := visit_count s slot
      have later := ih (slot + 1) (s.visit slot)
      simp only [run]
      omega

end Sweeping

/-! ## A whole cycle -/

/-- The sweep of a cycle, after its marking. -/
def swept (h : Heap) (roots : List Ref) : Sweeping :=
  Sweeping.run (Marking.run h.cells roots).cells.size 0
    { cells := (Marking.run h.cells roots).cells
      freeHead := h.freeHead
      freeCount := h.freeCount
      cycle := ⟨h.collections, roots.length, (Marking.run h.cells roots).count, 0, 0, []⟩ }

theorem collect_eq (h : Heap) (roots : List Ref) :
    h.collect roots =
      ((h.swept roots).cycle,
        { h with
          cells := (h.swept roots).cells
          freeHead := (h.swept roots).freeHead
          freeCount := (h.swept roots).freeCount
          sinceCycle := 0
          collections := h.collections + 1
          lastCycle := some (h.swept roots).cycle }) := rfl

variable {h : Heap} {roots : List Ref}

theorem collect_count (h : Heap) (roots : List Ref) :
    h.freeCount + (h.collect roots).1.freed = (h.collect roots).2.freeCount := by
  have counted := Sweeping.run_count (Marking.run h.cells roots).cells.size 0
    { cells := (Marking.run h.cells roots).cells
      freeHead := h.freeHead
      freeCount := h.freeCount
      cycle := ⟨h.collections, roots.length, (Marking.run h.cells roots).count, 0, 0, []⟩ }
  rw [Nat.zero_add] at counted
  exact counted

/-- The cycle frees the slot: its cell is in use and comes out of the marking
    without a mark. -/
def Frees (h : Heap) (roots : List Ref) (slot : Nat) : Prop :=
  Sweeping.dead (Marking.run h.cells roots).cells slot = true

theorem collect_size (h : Heap) (roots : List Ref) :
    (h.collect roots).2.cells.size = h.cells.size := by
  rw [collect_eq]
  simp [swept, Sweeping.run_size, (Marking.sameCells_run h.cells roots).size]

theorem Frees.live {slot : Nat} (frees : h.Frees roots slot) : h.Live (.ofSlot slot) := by
  cases found : (Marking.run h.cells roots).cells[slot]? with
  | none => simp [Frees, Sweeping.dead, found] at frees
  | some entry =>
      simp only [Frees, Sweeping.dead, found, Bool.and_eq_true, Bool.not_eq_true'] at frees
      obtain ⟨marked, before⟩ := (Marking.sameCells_run h.cells roots).symm.found found
      exact live_ofSlot.2 ⟨_, before, frees.1⟩

theorem Frees.not_freeAt {slot : Nat} (frees : h.Frees roots slot) : ¬ FreeAt h.cells slot := by
  rintro ⟨entry, found, free⟩
  obtain ⟨other, found', used⟩ := live_ofSlot.1 frees.live
  rw [found] at found'
  cases found'
  rw [free] at used
  cases used

theorem Frees.bound {slot : Nat} (frees : h.Frees roots slot) : slot < h.cells.size := by
  obtain ⟨entry, found, _⟩ := live_ofSlot.1 frees.live
  exact (Array.getElem?_eq_some_iff.1 found).1

/-- A slot that is freed joins the free list. -/
theorem Frees.collect {slot : Nat} (frees : h.Frees roots slot) :
    ∃ next, (h.collect roots).2.cells[slot]? = some ⟨.free next, false⟩ := by
  have inside := frees.bound
  rw [← (Marking.sameCells_run h.cells roots).size] at inside
  rw [collect_eq]
  exact Sweeping.run_freed _ _ _ ⟨by omega, by omega⟩ frees

/-- A slot that is not freed keeps its cell. -/
theorem collect_cell_kept {slot : Nat} (kept : ¬ h.Frees roots slot) :
    ((h.collect roots).2.cells[slot]?).map Entry.cell = (h.cells[slot]?).map Entry.cell := by
  rw [← Marking.sameCells_run h.cells roots slot, collect_eq]
  simp only [swept]
  by_cases inside : slot < (Marking.run h.cells roots).cells.size
  · rw [Sweeping.run_kept _ _ _ ⟨by omega, by omega⟩ (by simpa [Frees] using kept)]
    cases (Marking.run h.cells roots).cells[slot]? with
    | none => rfl
    | some entry => cases free : entry.cell.isFree <;> simp [free]
  · rw [Sweeping.run_outside _ _ _ (by omega)]

/-- A cycle changes a cell in one way only: it frees it. -/
theorem cell?_collect_cases (h : Heap) (roots : List Ref) (r : Ref) :
    (h.collect roots).2.cell? r = h.cell? r ∨
      ∃ next, (h.collect roots).2.cell? r = some (.free next) := by
  rcases r.null_or_ofSlot with rfl | ⟨slot, rfl⟩
  · exact Or.inl rfl
  · by_cases frees : h.Frees roots slot
    · obtain ⟨next, freed⟩ := frees.collect
      exact Or.inr ⟨next, by simp [freed]⟩
    · exact Or.inl (by simpa using collect_cell_kept frees)

theorem freeAt_collect_iff (slot : Nat) :
    FreeAt (h.collect roots).2.cells slot ↔ FreeAt h.cells slot ∨ h.Frees roots slot := by
  by_cases frees : h.Frees roots slot
  · obtain ⟨next, freed⟩ := frees.collect
    exact ⟨fun _ => Or.inr frees, fun _ => ⟨_, freed, rfl⟩⟩
  · have same := collect_cell_kept frees
    simp only [frees, or_false]
    constructor
    · rintro ⟨entry, found, free⟩
      rw [found, Option.map_some, eq_comm, Option.map_eq_some_iff] at same
      obtain ⟨old, before, eq⟩ := same
      exact ⟨old, before, by rw [eq, free]⟩
    · rintro ⟨entry, found, free⟩
      rw [found, Option.map_some, Option.map_eq_some_iff] at same
      obtain ⟨now, after, eq⟩ := same
      exact ⟨now, after, by rw [eq, free]⟩

/-- The slots that a cycle frees, last slot first. -/
def freedBy (h : Heap) (roots : List Ref) : List Nat :=
  Sweeping.freedSlots (Marking.run h.cells roots).cells 0 h.cells.size

theorem mem_freedBy {slot : Nat} : slot ∈ h.freedBy roots ↔ h.Frees roots slot := by
  rw [freedBy, Sweeping.mem_freedSlots]
  refine ⟨And.right, fun frees => ⟨⟨by omega, ?_⟩, frees⟩⟩
  have inside := Frees.bound frees
  omega

theorem nodup_freedBy (h : Heap) (roots : List Ref) : (h.freedBy roots).Nodup :=
  List.pairwise_reverse.2 ((List.Pairwise.filter _ List.nodup_range').imp Ne.symm)

/-- The new free list: what the cycle freed, last slot first, and then the old
    free list. -/
theorem collect_chain (roots : List Ref) {slots : List Nat}
    (chain : FreeChain h.cells h.freeHead slots)
    (free : ∀ slot ∈ slots, FreeAt h.cells slot) :
    FreeChain (h.collect roots).2.cells (h.collect roots).2.freeHead
        (h.freedBy roots ++ slots) ∧
      (h.collect roots).2.freeCount = h.freeCount + (h.freedBy roots).length := by
  have same := Marking.sameCells_run h.cells roots
  rw [collect_eq, freedBy, ← same.size]
  refine Sweeping.run_chain _ 0 _ (chain.sameCells same) ?_ ?_
  · intro slot member _
    rw [← Bool.not_eq_true]
    exact fun dies => Frees.not_freeAt dies (free slot member)
  · intro slot member
    obtain ⟨⟨cell, marked⟩, found, isFree⟩ := (same.freeAt_iff slot).2 (free slot member)
    cases cell with
    | free next => exact ⟨next, marked, found⟩
    | pair _ _ => cases isFree
    | scalar _ => cases isFree

/-- A cycle keeps the free list sound, whatever marks it starts from. -/
theorem wellFormed_collect (wf : h.WellFormed) : (h.collect roots).2.WellFormed := by
  obtain ⟨slots, chain, distinct, exact_, count⟩ := wf.free
  obtain ⟨chain', count'⟩ := collect_chain roots chain fun slot member => (exact_ slot).1 member
  refine ⟨?_, _, chain', ?_, ?_, by rw [count', count, List.length_append]; omega⟩
  · rw [collect_size]
    exact wf.arenas
  · refine List.nodup_append.2 ⟨nodup_freedBy h roots, distinct, ?_⟩
    intro slot freed other old same
    subst same
    exact (mem_freedBy.1 freed).not_freeAt ((exact_ slot).1 old)
  · intro slot
    rw [List.mem_append, mem_freedBy, exact_, freeAt_collect_iff, or_comm]

/-! ## A cycle in a heap without marks -/

theorem frees_iff (clear : h.Unmarked) (slot : Nat) :
    h.Frees roots slot ↔ h.Live (.ofSlot slot) ∧ ¬ h.Reachable roots (.ofSlot slot) := by
  have settled := Marking.settled_run roots clear
  rw [← Marking.marked_run_iff clear]
  constructor
  · intro frees
    refine ⟨frees.live, ?_⟩
    rintro ⟨other, entry, same, found, used, marked⟩
    obtain rfl := Ref.ofSlot_inj.1 same
    simp [Frees, Sweeping.dead, found, used, marked] at frees
  · rintro ⟨live, unmarked⟩
    obtain ⟨other, entry, same, found, used⟩ := (settled.invariant.live_iff _).1 live
    obtain rfl := Ref.ofSlot_inj.1 same
    cases marked : entry.marked with
    | true => exact absurd ⟨slot, entry, rfl, found, used, marked⟩ unmarked
    | false => simp [Frees, Sweeping.dead, found, used, marked]

/-- A slot that is not freed keeps its contents and has no mark if it is in use. -/
theorem collect_getElem?_kept (clear : h.Unmarked) {slot : Nat}
    (kept : ¬ h.Frees roots slot) : (h.collect roots).2.cells[slot]? = h.cells[slot]? := by
  have settled := Marking.settled_run roots clear
  have alive : Sweeping.dead (Marking.run h.cells roots).cells slot = false := by
    simpa [Frees] using kept
  have same := settled.invariant.cell slot
  rw [collect_eq]
  simp only [swept]
  by_cases inside : slot < (Marking.run h.cells roots).cells.size
  · rw [Sweeping.run_kept _ _ _ ⟨by omega, by omega⟩ alive]
    cases found : (Marking.run h.cells roots).cells[slot]? with
    | none =>
        rw [Array.getElem?_eq_none_iff] at found
        omega
    | some entry =>
        rw [found, Option.map_some] at same
        cases free : entry.cell.isFree with
        | true => simp [free, settled.invariant.free slot entry found free]
        | false =>
            obtain ⟨old, oldFound, eq⟩ := Option.map_eq_some_iff.1 same.symm
            have oldUsed : old.cell.isFree = false := by rw [eq, free]
            have unmarked := clear slot old oldFound oldUsed
            rw [oldFound]
            cases old
            simp_all
  · rw [Sweeping.run_outside _ _ _ (by omega), Array.getElem?_eq_none (Nat.le_of_not_lt inside),
      Array.getElem?_eq_none (by rw [← settled.invariant.size]; omega)]

/-- A cycle keeps exactly the cells in use that the roots lead to. -/
theorem live_collect_iff (clear : h.Unmarked) (r : Ref) :
    (h.collect roots).2.Live r ↔ h.Live r ∧ h.Reachable roots r := by
  rcases r.null_or_ofSlot with rfl | ⟨slot, rfl⟩
  · exact ⟨fun live => absurd live (not_live_null _),
      fun both => absurd both.1 (not_live_null _)⟩
  · by_cases frees : h.Frees roots slot
    · obtain ⟨next, freed⟩ := frees.collect
      refine ⟨?_, fun both => absurd both.2 ((frees_iff clear slot).1 frees).2⟩
      rw [live_ofSlot]
      rintro ⟨entry, found, used⟩
      rw [freed] at found
      cases found
      cases used
    · rw [live_ofSlot, collect_getElem?_kept clear frees, ← live_ofSlot]
      rw [frees_iff clear] at frees
      constructor
      · intro live
        exact ⟨live, Classical.byContradiction fun unreachable => frees ⟨live, unreachable⟩⟩
      · exact fun both => both.1

/-- A cell that survives a cycle has the contents it had. -/
theorem cell?_collect (clear : h.Unmarked) {r : Ref} (live : (h.collect roots).2.Live r) :
    (h.collect roots).2.cell? r = h.cell? r := by
  have reached := ((live_collect_iff clear r).1 live).2
  rcases r.null_or_ofSlot with rfl | ⟨slot, rfl⟩
  · exact absurd live (not_live_null _)
  · rw [cell?_ofSlot, cell?_ofSlot, collect_getElem?_kept clear fun frees => ((frees_iff clear _).1 frees).2 reached]

theorem unmarked_collect (clear : h.Unmarked) : (h.collect roots).2.Unmarked := by
  intro slot entry found used
  have live : (h.collect roots).2.Live (.ofSlot slot) := live_ofSlot.2 ⟨entry, found, used⟩
  have reached := ((live_collect_iff clear _).1 live).2
  rw [collect_getElem?_kept clear fun frees => ((frees_iff clear _).1 frees).2 reached] at found
  exact clear slot entry found used

/-! ## Heaps that a program can build -/

/-- The heaps that allocation, mutation and collection lead to from a fresh one,
    failing operations included. -/
inductive Formed : Heap → Prop where
  | ofArenaSize (size : Nat) : Formed (ofArenaSize size)
  | ofConfig (config : Config) : Formed (ofConfig config)
  | alloc {h h' : Heap} {cell : Cell} {r : Ref} : Formed h → cell.isFree = false →
      alloc cell h = .ok r h' → Formed h'
  | allocFails {h h' : Heap} {cell : Cell} {e : HeapError} : Formed h → cell.isFree = false →
      alloc cell h = .error e h' → Formed h'
  | setScalar {h : Heap} (r : Ref) (s : Scalar) : Formed h → Formed (h.setScalar r s).2
  | setCar {h : Heap} (r value : Ref) : Formed h → Formed (h.setCar r value).2
  | setCdr {h : Heap} (r value : Ref) : Formed h → Formed (h.setCdr r value).2
  | collect {h : Heap} (roots : List Ref) : Formed h → Formed (h.collect roots).2

theorem live_of_pair? {h : Heap} {r car cdr : Ref} (found : h.pair? r = some (car, cdr)) :
    h.Live r := by
  unfold pair? at found
  split at found
  · next holds => exact ⟨_, holds, rfl⟩
  · cases found

/-- A write: nothing happens, or a cell in use gets other contents, is in use
    still and gets no mark by it. -/
inductive Writes (h : Heap) : Heap → Prop where
  | none : Writes h h
  | cell {r : Ref} {f : Entry → Entry} : h.Live r →
      (∀ entry, entry.cell.isFree = false → (f entry).cell.isFree = false) →
      (∀ entry, entry.marked = false → (f entry).marked = false) → Writes h (h.modifyEntry r f)

theorem setScalar_writes (h : Heap) (r : Ref) (s : Scalar) : h.Writes (h.setScalar r s).2 := by
  unfold setScalar
  split
  · exact .none
  · exact .none
  · next cell notFree holds =>
      have live : h.Live r := by
        refine ⟨cell, holds, ?_⟩
        cases cell with
        | free next => exact absurd rfl (notFree next)
        | pair _ _ => rfl
        | scalar _ => rfl
      exact .cell live (fun _ _ => rfl) fun _ _ => rfl

theorem setCar_writes (h : Heap) (r value : Ref) : h.Writes (h.setCar r value).2 := by
  unfold setCar
  split
  · next found => exact .cell (live_of_pair? found) (fun _ _ => rfl) fun _ quiet => quiet
  · exact .none

theorem setCdr_writes (h : Heap) (r value : Ref) : h.Writes (h.setCdr r value).2 := by
  unfold setCdr
  split
  · next found => exact .cell (live_of_pair? found) (fun _ _ => rfl) fun _ quiet => quiet
  · exact .none

theorem Writes.wellFormed {h h' : Heap} (writes : h.Writes h') (wf : h.WellFormed) :
    h'.WellFormed := by
  cases writes with
  | none => exact wf
  | cell live used _ => exact wf.modifyEntry live used

theorem Writes.unmarked {h h' : Heap} (writes : h.Writes h') (clear : h.Unmarked) :
    h'.Unmarked := by
  cases writes with
  | none => exact clear
  | cell live _ quiet => exact clear.modifyEntry live quiet

theorem Writes.sound {h h' : Heap} (writes : h.Writes h') (sound : h.WellFormed ∧ h.Unmarked) :
    h'.WellFormed ∧ h'.Unmarked := ⟨writes.wellFormed sound.1, writes.unmarked sound.2⟩

theorem Formed.sound {h : Heap} (formed : Formed h) : h.WellFormed ∧ h.Unmarked := by
  induction formed with
  | ofArenaSize size => exact ⟨wellFormed_ofArenaSize size, unmarked_ofArenaSize size⟩
  | ofConfig config => exact ⟨wellFormed_ofConfig config, unmarked_ofConfig config⟩
  | alloc _ used done ih =>
      have allocated := alloc_ok ih.1 used done
      exact ⟨allocated.wellFormed, allocated.unmarked ih.2⟩
  | allocFails _ used done ih =>
      rw [alloc_error ih.1 used done]
      exact ih
  | setScalar r s _ ih => exact (setScalar_writes _ r s).sound ih
  | setCar r value _ ih => exact (setCar_writes _ r value).sound ih
  | setCdr r value _ ih => exact (setCdr_writes _ r value).sound ih
  | collect roots _ ih => exact ⟨wellFormed_collect ih.1, unmarked_collect ih.2⟩

/-- Collection is sound and precise, for every graph of cells and every list of
    roots, and it can be repeated. -/
theorem collect_keeps_exactly_the_reachable :
    (∀ h : Heap, Formed h → h.WellFormed ∧ h.Unmarked) ∧
    ∀ h : Heap, h.WellFormed → h.Unmarked → ∀ roots : List Ref,
      (Marking.run h.cells roots).wave = [] ∧
      (∀ r, (h.collect roots).2.Live r ↔ h.Live r ∧ h.Reachable roots r) ∧
      (∀ r, (h.collect roots).2.Live r → (h.collect roots).2.cell? r = h.cell? r) ∧
      (h.collect roots).2.Unmarked ∧ (h.collect roots).2.WellFormed := by
  refine ⟨fun h formed => formed.sound, ?_⟩
  intro h wf clear roots
  exact ⟨Marking.run_wave clear, live_collect_iff clear, fun r live => cell?_collect clear live,
    unmarked_collect clear, wellFormed_collect wf⟩

/-- Four cells: a pair that refers to itself, an integer, a pair that refers to
    itself and to a cell beyond the heap, and a free cell. -/
def looped : Heap :=
  { ofArenaSize 4 with
    cells := #[⟨.pair ⟨1⟩ ⟨2⟩, false⟩, ⟨.scalar (.integer 7), false⟩, ⟨.pair ⟨3⟩ ⟨9⟩, false⟩,
      ⟨.free .null, false⟩]
    freeHead := ⟨4⟩
    freeCount := 1 }

theorem looped_wellFormed : looped.WellFormed where
  arenas := by decide
  free := by
    refine ⟨[3], @FreeChain.cons _ 3 .null false [] rfl .nil, by simp, ?_, rfl⟩
    intro slot
    match slot with
    | 0 => simp [FreeAt, looped, Cell.isFree]
    | 1 => simp [FreeAt, looped, Cell.isFree]
    | 2 => simp [FreeAt, looped, Cell.isFree]
    | 3 => simp [FreeAt, looped, Cell.isFree]
    | slot + 4 => simp [FreeAt, looped]

theorem looped_unmarked : looped.Unmarked := by
  intro slot entry found _
  match slot with
  | 0 => cases found; rfl
  | 1 => cases found; rfl
  | 2 => cases found; rfl
  | 3 => cases found; rfl
  | slot + 4 => simp [looped] at found

/-- With the first pair, the empty list and a handle beyond the heap as roots,
    the first pair and its integer stay, and the other pair goes. -/
theorem collect_looped :
    (looped.WellFormed ∧ looped.Unmarked) ∧
    (looped.collect [⟨1⟩, .null, ⟨8⟩]).2.Live ⟨2⟩ ∧
    ¬ (looped.collect [⟨1⟩, .null, ⟨8⟩]).2.Live ⟨3⟩ := by
  obtain ⟨_, exact_, _⟩ := collect_keeps_exactly_the_reachable.2 looped looped_wellFormed
    looped_unmarked [⟨1⟩, .null, ⟨8⟩]
  refine ⟨⟨looped_wellFormed, looped_unmarked⟩, ?_, ?_⟩
  · rw [exact_]
    have first : looped.Live ⟨1⟩ := ⟨_, rfl, rfl⟩
    have second : looped.Live ⟨2⟩ := ⟨_, rfl, rfl⟩
    exact ⟨second, .child (.root (by simp) first) rfl (.cdr _ _) second⟩
  · rw [exact_]
    rintro ⟨_, reached⟩
    have only : ∀ r, looped.Reachable [⟨1⟩, .null, ⟨8⟩] r → r ≠ ⟨3⟩ := by
      intro r reached
      induction reached with
      | root member live =>
          rintro rfl
          simp [Ref.null] at member
      | @child parent child cell _ found refers _ ih =>
          rintro rfl
          have member := Cell.mem_children.2 refers
          rcases parent with ⟨_ | _ | _ | _ | _ | n⟩
          · cases found
          · cases found
            simp [looped, Cell.children] at member
          · cases found
            cases member
          · exact ih rfl
          · cases found
            cases member
          · cases found
    exact only _ reached rfl

end Heap

end LispMachine
