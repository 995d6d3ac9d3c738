import Mathlib.Algebra.GroupWithZero.Nat
import Mathlib.Data.List.Induction
import LispMachine.Proofs.Heap.Accounting

/-!
# The report of a cycle

The figures that a cycle reports agree with the heap it leaves: what it marked is
what survives, what it freed is what is missing, and the survivors other than
pairs are counted by tag in the order in which they stand in the heap. The cells
that were freed come before the old free list, last slot first, so they are the
next to be given out, in that order. Nothing of this depends on the order of the
roots: marking reaches the same cells in every order, and the sweep looks at the
marks only.
-/

namespace LispMachine

/-! ## Counting by tag -/

namespace Cycle

/-- The tags of a list, each once and in the order of first occurrence, with the
    number of times they occur. -/
def census (tags : List Tag) : List (Tag × Nat) :=
  tags.eraseDups.map fun tag => (tag, tags.count tag)

section

variable {α : Type} [BEq α] [LawfulBEq α]

theorem eraseDups_snoc (items : List α) (item : α) [Decidable (item ∈ items)] :
    (items ++ [item]).eraseDups =
      if item ∈ items then items.eraseDups else items.eraseDups ++ [item] := by
  rw [List.eraseDups_append]
  split
  · next known => simp [List.removeAll, known]
  · next fresh => simp [List.removeAll, fresh, List.eraseDups_cons]

theorem nodup_eraseDups (items : List α) : items.eraseDups.Nodup := by
  classical
  induction items using List.reverseRecOn with
  | nil => exact List.nodup_nil
  | append_singleton items item ih =>
      rw [eraseDups_snoc]
      split
      · exact ih
      · next fresh =>
          rw [← List.mem_eraseDups] at fresh
          exact List.nodup_append.2 ⟨ih, List.nodup_singleton _, by grind⟩

end

theorem tally_map (tag : Tag) (count : Tag → Nat) {known : List Tag} (distinct : known.Nodup) :
    tally tag (known.map fun other => (other, count other)) =
      if tag ∈ known then
        known.map fun other => (other, if other = tag then count other + 1 else count other)
      else known.map (fun other => (other, count other)) ++ [(tag, 1)] := by
  induction known with
  | nil => rfl
  | cons first rest ih =>
      rw [List.nodup_cons] at distinct
      by_cases same : first = tag
      · subst same
        have others : ∀ other ∈ rest, (other, count other) =
            (other, if other = first then count other + 1 else count other) := by
          intro other member
          rw [if_neg]
          rintro rfl
          exact distinct.1 member
        simp [tally, List.map_congr_left others]
      · have apart : ¬ tag = first := Ne.symm same
        simp only [List.map_cons, tally, if_neg same, ih distinct.2, List.mem_cons, apart,
          false_or]
        split <;> simp

theorem tally_census (tag : Tag) (tags : List Tag) :
    tally tag (census tags) = census (tags ++ [tag]) := by
  rw [census, tally_map tag _ (nodup_eraseDups tags), census, eraseDups_snoc]
  simp only [List.mem_eraseDups, List.count_append, List.count_singleton]
  split
  · refine List.map_congr_left fun other _ => ?_
    by_cases same : other = tag
    · simp [same]
    · simp [same, Ne.symm same]
  · next fresh =>
      have others : ∀ other ∈ tags.eraseDups, (other, tags.count other) =
          (other, tags.count other + if tag == other then 1 else 0) := by
        intro other member
        have different : ¬ tag = other := by
          rintro rfl
          exact fresh (List.mem_eraseDups.1 member)
        simp [different]
      simp [List.map_congr_left others, List.count_eq_zero_of_not_mem fresh]

/-- Tags that are counted one after the other come to their census. -/
theorem foldl_tally (tags : List Tag) :
    tags.foldl (fun found tag => tally tag found) [] = census tags := by
  induction tags using List.reverseRecOn with
  | nil => rfl
  | append_singleton tags tag ih => rw [List.foldl_concat, ih, tally_census]

theorem sum_tally (tag : Tag) (found : List (Tag × Nat)) :
    ((tally tag found).map Prod.snd).sum = (found.map Prod.snd).sum + 1 := by
  induction found with
  | nil => rfl
  | cons first rest ih =>
      obtain ⟨other, count⟩ := first
      simp only [tally]
      split
      · simp only [List.map_cons, List.sum_cons]
        omega
      · simp only [List.map_cons, List.sum_cons, ih]
        omega

theorem sum_census (tags : List Tag) : ((census tags).map Prod.snd).sum = tags.length := by
  induction tags using List.reverseRecOn with
  | nil => rfl
  | append_singleton tags tag ih => rw [← tally_census, sum_tally, ih, List.length_append]; rfl

end Cycle

namespace Heap

/-! ## The cells in use -/

/-- The cells in use, in ascending order of their slots. -/
def used (h : Heap) : List Cell :=
  (h.cells.toList.map Entry.cell).filter fun cell => !cell.isFree

/-- The contents of a slot, if it is in use and satisfies the condition. -/
def usedIf (keep : Entry → Bool) (cells : Array Entry) (slot : Nat) : Option Cell :=
  match cells[slot]? with
  | some entry => if !entry.cell.isFree && keep entry then some entry.cell else none
  | none => none

theorem filterMap_getElem? {α : Type} (items : List α) :
    (List.range' 0 items.length).filterMap (fun place => items[place]?) = items := by
  induction items using List.reverseRecOn with
  | nil => rfl
  | append_singleton items last ih =>
      have before : ∀ place ∈ List.range' 0 items.length,
          (items ++ [last])[place]? = items[place]? := by
        intro place member
        rw [List.mem_range'_1] at member
        exact List.getElem?_append_left (by omega)
      rw [List.length_append, List.length_singleton, List.range'_1_concat, List.filterMap_append,
        List.filterMap_congr before, ih]
      simp

theorem filterMap_usedIf (keep : Entry → Bool) (cells : Array Entry) :
    (List.range' 0 cells.size).filterMap (usedIf keep cells) =
      (cells.toList.filter fun entry => !entry.cell.isFree && keep entry).map Entry.cell := by
  have slots := filterMap_getElem? cells.toList
  rw [Array.length_toList] at slots
  conv => rhs; rw [← slots]
  rw [← List.filterMap_eq_filter, List.filterMap_filterMap, List.map_filterMap]
  refine List.filterMap_congr fun slot _ => ?_
  simp only [usedIf, Array.getElem?_toList]
  cases cells[slot]? with
  | none => rfl
  | some entry =>
      simp only [Option.guard, Option.bind_some]
      split <;> rfl

theorem used_eq (h : Heap) :
    h.used = (List.range' 0 h.cells.size).filterMap (usedIf (fun _ => true) h.cells) := by
  rw [filterMap_usedIf, used, List.filter_map]
  simp [Function.comp_def]

theorem markedCount_eq (cells : Array Entry) :
    markedCount cells =
      ((List.range' 0 cells.size).filterMap (usedIf Entry.marked cells)).length := by
  rw [filterMap_usedIf, List.length_map, markedCount, ← Array.countP_toList,
    List.countP_eq_length_filter]
  simp only [Bool.and_comm]

/-- The counter of live cells is the number of cells in use. -/
theorem WellFormed.live_eq {h : Heap} (wf : h.WellFormed) : h.live = h.used.length := by
  obtain ⟨slots, _, distinct, exact_, count⟩ := wf.free
  have sum := wf.live_add_freeCount
  have free_iff : ∀ slot, slot ∈ slots ↔ slot ∈ (List.range' 0 h.cells.size).filter
      fun slot => ¬ (usedIf (fun _ => true) h.cells slot).isSome := by
    intro slot
    rw [exact_ slot, List.mem_filter, List.mem_range'_1]
    cases found : h.cells[slot]? with
    | none =>
        have outside := Array.getElem?_eq_none_iff.1 found
        simp [FreeAt, found]
        omega
    | some entry =>
        have inside := (Array.getElem?_eq_some_iff.1 found).1
        cases free : entry.cell.isFree <;> simp_all [FreeAt, usedIf]
  have same := ((List.perm_ext_iff_of_nodup distinct
    (List.Nodup.filter _ List.nodup_range')).2 free_iff).length_eq
  have split := @List.length_eq_countP_add_countP _
    (fun slot => (usedIf (fun _ => true) h.cells slot).isSome) (List.range' 0 h.cells.size)
  rw [List.length_range', ← List.length_filterMap_eq_countP, ← used_eq,
    List.countP_eq_length_filter, ← same, ← count] at split
  rw [capacity] at sum
  omega

namespace Sweeping

/-- The cells in use with a mark, among a number of slots. -/
def keptCells (cells : Array Entry) (slot count : Nat) : List Cell :=
  (List.range' slot count).filterMap (usedIf Entry.marked cells)

theorem usedIf_visit_other (s : Sweeping) {slot other : Nat} (different : other ≠ slot) :
    usedIf Entry.marked (s.visit slot).cells other = usedIf Entry.marked s.cells other := by
  simp only [usedIf, visit_other s different]

theorem keptCells_succ (s : Sweeping) (slot count : Nat) :
    keptCells s.cells slot (count + 1) =
      (usedIf Entry.marked s.cells slot).toList ++
        keptCells (s.visit slot).cells (slot + 1) count := by
  have later : (List.range' (slot + 1) count).filterMap
        (usedIf Entry.marked (s.visit slot).cells) =
      (List.range' (slot + 1) count).filterMap (usedIf Entry.marked s.cells) := by
    refine List.filterMap_congr fun other member => ?_
    rw [List.mem_range'_1] at member
    exact usedIf_visit_other s (by omega)
  rw [keptCells, keptCells, later, List.range'_succ, List.filterMap_cons]
  cases usedIf Entry.marked s.cells slot <;> rfl

/-- The sweep of one slot reports the cell if it is kept. -/
theorem visit_report (s : Sweeping) (slot : Nat) :
    (s.visit slot).cycle.index = s.cycle.index ∧
    (s.visit slot).cycle.roots = s.cycle.roots ∧
    (s.visit slot).cycle.marked = s.cycle.marked ∧
    (s.visit slot).cycle.pairs =
      s.cycle.pairs + (usedIf Entry.marked s.cells slot).toList.countP Cell.isPair ∧
    (s.visit slot).cycle.survivors =
      ((usedIf Entry.marked s.cells slot).toList.filterMap Cell.tag?).foldl
        (fun found tag => Cycle.tally tag found) s.cycle.survivors := by
  unfold visit usedIf
  cases s.cells[slot]? with
  | none => simp
  | some entry =>
      obtain ⟨cell, marked⟩ := entry
      cases cell <;> cases marked <;>
        simp [Cell.isFree, Cycle.survivor, Cell.tag?, Cell.isPair, List.filterMap_cons]

/-- The report of a sweep counts the cells that it keeps. -/
theorem run_report (count slot : Nat) (s : Sweeping) :
    (run count slot s).cycle.index = s.cycle.index ∧
    (run count slot s).cycle.roots = s.cycle.roots ∧
    (run count slot s).cycle.marked = s.cycle.marked ∧
    (run count slot s).cycle.pairs =
      s.cycle.pairs + (keptCells s.cells slot count).countP Cell.isPair ∧
    (run count slot s).cycle.survivors =
      ((keptCells s.cells slot count).filterMap Cell.tag?).foldl
        (fun found tag => Cycle.tally tag found) s.cycle.survivors := by
  induction count generalizing slot s with
  | zero => exact ⟨rfl, rfl, rfl, rfl, rfl⟩
  | succ count ih =>
      obtain ⟨index, roots, marked, pairs, survivors⟩ := visit_report s slot
      obtain ⟨index', roots', marked', pairs', survivors'⟩ := ih (slot + 1) (s.visit slot)
      rw [run, keptCells_succ]
      refine ⟨index'.trans index, roots'.trans roots, marked'.trans marked, ?_, ?_⟩
      · rw [pairs', pairs, List.countP_append]
        omega
      · rw [survivors', survivors, List.filterMap_append, List.foldl_append]

end Sweeping

/-! ## A whole cycle -/

variable {h : Heap} {roots : List Ref}

/-- In use after a cycle is what was in use and marked before its sweep. -/
theorem usedIf_collect (h : Heap) (roots : List Ref) (slot : Nat) :
    usedIf (fun _ => true) (h.collect roots).2.cells slot =
      usedIf Entry.marked (Marking.run h.cells roots).cells slot := by
  have same := Marking.sameCells_run h.cells roots slot
  by_cases frees : h.Frees roots slot
  · obtain ⟨next, freed⟩ := frees.collect
    have dies := frees
    unfold Frees Sweeping.dead at dies
    unfold usedIf
    rw [freed]
    cases found : (Marking.run h.cells roots).cells[slot]? with
    | none => simp [found] at dies
    | some entry =>
        simp only [found, Bool.and_eq_true, Bool.not_eq_true'] at dies
        simp [Cell.isFree, dies]
  · have kept := collect_cell_kept frees
    unfold Frees Sweeping.dead at frees
    unfold usedIf
    cases found : (Marking.run h.cells roots).cells[slot]? with
    | none =>
        rw [← same, found, Option.map_none, Option.map_eq_none_iff] at kept
        rw [kept]
    | some entry =>
        rw [← same, found, Option.map_some, Option.map_eq_some_iff] at kept
        obtain ⟨now, after, eq⟩ := kept
        rw [after]
        simp only [found, Bool.and_eq_true, Bool.not_eq_true', not_and, Bool.not_eq_false] at frees
        cases free : entry.cell.isFree with
        | true => simp [eq, free]
        | false => simp [eq, free, frees free]

theorem used_collect (h : Heap) (roots : List Ref) :
    (h.collect roots).2.used =
      Sweeping.keptCells (Marking.run h.cells roots).cells 0 h.cells.size := by
  rw [used_eq, collect_size, Sweeping.keptCells]
  exact List.filterMap_congr fun slot _ => usedIf_collect h roots slot

/-- The report of a cycle, in terms of the heap that it leaves. -/
theorem collect_report (h : Heap) (roots : List Ref) :
    (h.collect roots).1.index = h.collections ∧
    (h.collect roots).1.roots = roots.length ∧
    (h.collect roots).1.marked = (Marking.run h.cells roots).count ∧
    (h.collect roots).1.pairs = (h.collect roots).2.used.countP Cell.isPair ∧
    (h.collect roots).1.survivors =
      Cycle.census ((h.collect roots).2.used.filterMap Cell.tag?) := by
  obtain ⟨index, number, marked, pairs, survivors⟩ :=
    Sweeping.run_report (Marking.run h.cells roots).cells.size 0
      { cells := (Marking.run h.cells roots).cells
        freeHead := h.freeHead
        freeCount := h.freeCount
        cycle := ⟨h.collections, roots.length, (Marking.run h.cells roots).count, 0, 0, []⟩ }
  rw [Nat.zero_add] at pairs
  rw [Cycle.foldl_tally] at survivors
  rw [used_collect, ← (Marking.sameCells_run h.cells roots).size]
  exact ⟨index, number, marked, pairs, survivors⟩

/-- What is marked survives. -/
theorem marked_collect (roots : List Ref) (clear : h.Unmarked) :
    (h.collect roots).1.marked = (h.collect roots).2.used.length := by
  have settled := Marking.settled_run roots clear
  rw [(collect_report h roots).2.2.1, settled.invariant.count, markedCount_eq,
    settled.invariant.size, used_collect, Sweeping.keptCells]

theorem length_freedBy (wf : h.WellFormed) (roots : List Ref) :
    (h.freedBy roots).length = (h.collect roots).1.freed := by
  obtain ⟨slots, chain, _, exact_, _⟩ := wf.free
  have count := (collect_chain roots chain fun slot member => (exact_ slot).1 member).2
  have report := collect_count h roots
  omega

/-- What is in use before a cycle survives it or is freed by it. -/
theorem marked_add_freed (wf : h.WellFormed) (roots : List Ref) (clear : h.Unmarked) :
    (h.collect roots).1.marked + (h.collect roots).1.freed = h.live := by
  have wf' : (h.collect roots).2.WellFormed := wellFormed_collect wf
  have before := wf.live_add_freeCount
  have after := wf'.live_add_freeCount
  have size : (h.collect roots).2.capacity = h.capacity := collect_size h roots
  have count := collect_count h roots
  have marked := marked_collect roots clear
  rw [← wf'.live_eq] at marked
  omega

/-- A cell in use is a pair, or it has a tag. -/
theorem countP_isPair_add_tags (cells : List Cell) :
    cells.countP Cell.isPair + (cells.filterMap Cell.tag?).length = cells.length := by
  induction cells with
  | nil => rfl
  | cons cell rest ih =>
      cases cell <;> simp only [List.countP_cons, List.filterMap_cons, Cell.isPair, Cell.tag?,
        List.length_cons] <;> simp <;> omega

theorem pairs_add_survivors (h : Heap) (roots : List Ref) :
    (h.collect roots).1.pairs + ((h.collect roots).1.survivors.map Prod.snd).sum =
      (h.collect roots).2.used.length := by
  obtain ⟨_, _, _, pairs, survivors⟩ := collect_report h roots
  rw [pairs, survivors, Cycle.sum_census, countP_isPair_add_tags]

theorem freedBy_descends (h : Heap) (roots : List Ref) :
    (h.freedBy roots).Pairwise (· > ·) :=
  List.pairwise_reverse.2 ((List.pairwise_lt_range' (s := 0)).sublist List.filter_sublist)

/-! ## The cells that are given out next -/

/-- There is one chain only from a handle on. -/
theorem FreeChain.unique {cells : Array Entry} {head : Ref} {slots slots' : List Nat}
    (chain : FreeChain cells head slots) (chain' : FreeChain cells head slots') :
    slots = slots' := by
  induction chain generalizing slots' with
  | nil => exact chain'.eq_nil.symm
  | @cons slot next marked rest found _ ih =>
      generalize head_eq : Ref.ofSlot slot = head at chain'
      cases chain' with
      | nil => exact absurd head_eq (Ref.ofSlot_ne_null _)
      | cons found' tail =>
          obtain rfl := Ref.ofSlot_inj.1 head_eq
          rw [found] at found'
          cases found'
          rw [ih tail]

/-- Allocations take the cells of the free list one after the other. -/
theorem allocs_take_chain (cells : List Cell) {slots : List Nat}
    (chain : FreeChain h.cells h.freeHead slots) (distinct : slots.Nodup)
    (enough : cells.length ≤ slots.length) :
    ∃ h', cells.mapM alloc h = .ok ((slots.take cells.length).map .ofSlot) h' := by
  induction cells generalizing h slots with
  | nil => exact ⟨h, rfl⟩
  | cons cell rest ih =>
      generalize head_eq : h.freeHead = head at chain
      cases chain with
      | nil => simp at enough
      | @cons slot next marked others found tail =>
          rw [List.nodup_cons] at distinct
          have placing := place_eq cell head_eq found
          have taken : alloc cell h = .ok (.ofSlot slot) (h.placed slot next cell) := by
            rw [alloc_eq, if_neg (by simp [head_eq]), placing]
          have chain' : FreeChain (h.placed slot next cell).cells next others := by
            refine tail.frame fun other member => ?_
            have different : slot ≠ other := by
              rintro rfl
              exact distinct.1 member
            exact Array.getElem?_setIfInBounds_ne different
          obtain ⟨h', done⟩ := ih (h := h.placed slot next cell) chain' distinct.2
            (by simpa using enough)
          refine ⟨h', ?_⟩
          rw [List.mapM_cons]
          simp only [bind, EStateM.bind, taken, done]
          rfl

/-! ## The order of the roots -/

theorem Reachable.mono {roots' : List Ref} (sub : roots ⊆ roots') {r : Ref}
    (reached : h.Reachable roots r) : h.Reachable roots' r := by
  induction reached with
  | root member live => exact .root (sub member) live
  | child _ found refers live ih => exact .child ih found refers live

theorem marked_ofSlot {cells : Array Entry} {slot : Nat} {entry : Entry}
    (found : cells[slot]? = some entry) (used : entry.cell.isFree = false) :
    Marked cells (.ofSlot slot) ↔ entry.marked = true := by
  refine ⟨?_, fun marked => ⟨slot, entry, rfl, found, used, marked⟩⟩
  rintro ⟨other, entry', same, found', _, marked⟩
  obtain rfl := Ref.ofSlot_inj.1 same
  rw [found] at found'
  cases found'
  exact marked

/-- Two markings of a heap without marks leave the same slots if they mark the
    same cells. -/
theorem marking_ext {roots' : List Ref} {m m' : Marking}
    (inv : Marking.Invariant h roots [] m) (inv' : Marking.Invariant h roots' [] m')
    (agree : ∀ r, Marked m.cells r ↔ Marked m'.cells r) : m.cells = m'.cells := by
  refine Array.ext_getElem? fun slot => ?_
  have same : (m.cells[slot]?).map Entry.cell = (m'.cells[slot]?).map Entry.cell :=
    (inv.cell slot).trans (inv'.cell slot).symm
  cases found : m.cells[slot]? with
  | none =>
      rw [found, Option.map_none, eq_comm, Option.map_eq_none_iff] at same
      exact same.symm
  | some entry =>
      rw [found, Option.map_some, eq_comm, Option.map_eq_some_iff] at same
      obtain ⟨entry', found', eq⟩ := same
      rw [found']
      cases free : entry.cell.isFree with
      | true => rw [← inv.free slot entry found free, inv'.free slot entry' found' (by rw [eq, free])]
      | false =>
          have marks := agree (.ofSlot slot)
          rw [marked_ofSlot found free, marked_ofSlot found' (by rw [eq, free])] at marks
          obtain ⟨cell, marked⟩ := entry
          obtain ⟨cell', marked'⟩ := entry'
          simp only at eq marks
          rw [eq, Bool.eq_iff_iff.2 marks]

/-- Marking depends on the set of the roots only. -/
theorem run_congr (clear : h.Unmarked) {roots' : List Ref}
    (same : ∀ r, r ∈ roots ↔ r ∈ roots') :
    Marking.run h.cells roots = Marking.run h.cells roots' := by
  have inv := (Marking.settled_run roots clear).invariant
  have inv' := (Marking.settled_run roots' clear).invariant
  have cells : (Marking.run h.cells roots).cells = (Marking.run h.cells roots').cells := by
    refine marking_ext inv inv' fun r => ?_
    rw [Marking.marked_run_iff clear, Marking.marked_run_iff clear]
    exact ⟨Reachable.mono fun r => (same r).1, Reachable.mono fun r => (same r).2⟩
  have wave : (Marking.run h.cells roots).wave = (Marking.run h.cells roots').wave := by
    rw [Marking.run_wave clear, Marking.run_wave clear]
  have count : (Marking.run h.cells roots).count = (Marking.run h.cells roots').count := by
    rw [inv.count, inv'.count, cells]
  generalize Marking.run h.cells roots = m at cells wave count
  cases m
  simp only at cells wave count
  rw [cells, wave, count]

/-- A cycle depends on the number of its roots and on their set, not on their
    order. -/
theorem collect_congr (clear : h.Unmarked) {roots' : List Ref}
    (length : roots.length = roots'.length) (same : ∀ r, r ∈ roots ↔ r ∈ roots') :
    h.collect roots = h.collect roots' := by
  rw [collect_eq, collect_eq, swept, swept, run_congr clear same, length]

/-! ## The law -/

/-- What a cycle reports is what it does, in every heap whose free list is sound
    and whose cells in use carry no mark. It marks the cells that survive, which
    are all that is live afterwards, and frees the others that were live. Pairs are
    counted apart; the tags of the other survivors are listed once each, in the
    order of their first survivor, with the number of their survivors. The freed
    slots, the last one first, come before the free list as it was, and the next
    allocations take them in this order. Roots of the same number and the same set
    lead to the same report and the same heap, whatever their order. -/
theorem cycles_report_what_they_do (h : Heap) (wf : h.WellFormed) (clear : h.Unmarked)
    (roots : List Ref) :
    let cycle := (h.collect roots).1
    let after := (h.collect roots).2
    let freed := h.freedBy roots
    (∀ r, after.Live r ↔ h.Live r ∧ h.Reachable roots r) ∧
    (cycle.roots = roots.length ∧
      cycle.marked = after.used.length ∧
      cycle.marked = after.live ∧
      cycle.marked + cycle.freed = h.live ∧
      cycle.pairs = after.used.countP Cell.isPair ∧
      cycle.pairs + (cycle.survivors.map Prod.snd).sum = cycle.marked) ∧
    ((cycle.survivors.map Prod.fst).Nodup ∧
      cycle.survivors = (after.used.filterMap Cell.tag?).eraseDups.map fun tag =>
        (tag, (after.used.filterMap Cell.tag?).count tag)) ∧
    (freed.length = cycle.freed ∧ freed.Pairwise (· > ·) ∧
      (∀ slot, slot ∈ freed ↔ h.Live (.ofSlot slot) ∧ ¬ after.Live (.ofSlot slot)) ∧
      (∀ slots, FreeChain h.cells h.freeHead slots →
        FreeChain after.cells after.freeHead (freed ++ slots)) ∧
      ∀ cells : List Cell, cells.length ≤ freed.length →
        ∃ h', cells.mapM alloc after = .ok ((freed.take cells.length).map .ofSlot) h') ∧
    ∀ roots' : List Ref, roots'.length = roots.length → (∀ r, r ∈ roots' ↔ r ∈ roots) →
      h.collect roots' = h.collect roots := by
  intro cycle after freed
  obtain ⟨slots, chain, _, exact_, _⟩ := wf.free
  have wf' : after.WellFormed := wellFormed_collect wf
  obtain ⟨slots', now, distinct, _⟩ := wf'.free
  have marked : cycle.marked = after.used.length := marked_collect roots clear
  obtain ⟨_, number, _, pairs, survivors⟩ := collect_report h roots
  have chain' := (collect_chain roots chain fun slot member => (exact_ slot).1 member).1
  refine ⟨live_collect_iff clear, ⟨number, marked, ?_, marked_add_freed wf roots clear, pairs, ?_⟩,
    ⟨?_, survivors⟩, ⟨length_freedBy wf roots, freedBy_descends h roots, ?_, ?_, ?_⟩,
    fun roots' length same => collect_congr clear length same⟩
  · rw [marked, wf'.live_eq]
  · rw [marked]
    exact pairs_add_survivors h roots
  · have tags : cycle.survivors.map Prod.fst = (after.used.filterMap Cell.tag?).eraseDups := by
      rw [survivors, Cycle.census, List.map_map]
      exact List.map_id _
    rw [tags]
    exact Cycle.nodup_eraseDups _
  · intro slot
    rw [mem_freedBy, frees_iff clear, live_collect_iff clear]
    grind
  · intro slots' same
    rw [same.unique chain]
    exact chain'
  · intro cells enough
    rw [now.unique chain'] at distinct
    obtain ⟨h', done⟩ := allocs_take_chain cells chain' distinct
      (by rw [List.length_append]; exact Nat.le_trans enough (Nat.le_add_right _ _))
    rw [List.take_append_of_le_length enough] at done
    exact ⟨h', done⟩

/-- Eight cells: a pair of a symbol and an integer, one more integer, a free cell,
    a pair that holds another symbol, and an integer that no pair holds. -/
def assorted : Heap :=
  { ofArenaSize 8 with
    cells := #[⟨.pair ⟨2⟩ ⟨3⟩, false⟩, ⟨.scalar (.symbol "a"), false⟩,
      ⟨.scalar (.integer 7), false⟩, ⟨.scalar (.integer 1), false⟩, ⟨.free .null, false⟩,
      ⟨.pair ⟨7⟩ .null, false⟩, ⟨.scalar (.symbol "b"), false⟩,
      ⟨.scalar (.integer 2), false⟩]
    freeHead := ⟨5⟩
    freeCount := 1 }

theorem assorted_wellFormed : assorted.WellFormed where
  arenas := by decide
  free := by
    refine ⟨[4], @FreeChain.cons _ 4 .null false [] rfl .nil, by simp, ?_, rfl⟩
    intro slot
    match slot with
    | 0 | 1 | 2 | 3 | 4 | 5 | 6 | 7 => simp [FreeAt, assorted, Cell.isFree]
    | slot + 8 => simp [FreeAt, assorted]

theorem assorted_unmarked : assorted.Unmarked := by
  intro slot entry found _
  have clear : ∀ entry ∈ assorted.cells, entry.marked = false := by decide
  exact clear entry (Array.mem_of_getElem? found)

/-- With the last integer, the first pair and the last integer again as roots, the
    first pair, its parts and the last integer stay. The rest goes, and is given out
    again from the highest place to the lowest. -/
theorem cycles_report_what_they_do_assorted :
    assorted.WellFormed ∧ assorted.Unmarked ∧
    (assorted.collect [⟨8⟩, ⟨1⟩, ⟨8⟩]).1.survivors = [(.symbol, 1), (.integer, 2)] ∧
    assorted.collect [⟨1⟩, ⟨8⟩, ⟨1⟩] = assorted.collect [⟨8⟩, ⟨1⟩, ⟨8⟩] ∧
    ∃ h', [Cell.pair .null .null, .scalar (.integer 0)].mapM alloc
      (assorted.collect [⟨8⟩, ⟨1⟩, ⟨8⟩]).2 = .ok [⟨7⟩, ⟨6⟩] h' := by
  obtain ⟨_, _, ⟨_, survivors⟩, ⟨_, _, _, _, allocs⟩, order⟩ :=
    cycles_report_what_they_do assorted assorted_wellFormed assorted_unmarked [⟨8⟩, ⟨1⟩, ⟨8⟩]
  have freed : assorted.freedBy [⟨8⟩, ⟨1⟩, ⟨8⟩] = [6, 5, 3] := by decide +kernel
  rw [freed] at allocs
  refine ⟨assorted_wellFormed, assorted_unmarked, ?_,
    order [⟨1⟩, ⟨8⟩, ⟨1⟩] rfl (by simp; grind), allocs _ (by decide)⟩
  rw [survivors]
  decide +kernel

end Heap

end LispMachine
