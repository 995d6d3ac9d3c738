import LispMachine.Heap.Collect

/-!
# The free list

The free cells of a heap form one chain that starts at `freeHead`, ends in the
empty list and passes every free cell exactly once. Allocation takes the first
cell of the chain, or the first cell of a new arena when there is none, and
touches no other cell.
-/

namespace LispMachine

theorem Ref.null_or_ofSlot (r : Ref) : r = .null ∨ ∃ slot, r = .ofSlot slot := by
  rcases r with ⟨index⟩
  cases index with
  | zero => exact Or.inl rfl
  | succ slot => exact Or.inr ⟨slot, rfl⟩

theorem Ref.ofSlot_inj {a b : Nat} : Ref.ofSlot a = Ref.ofSlot b ↔ a = b := by
  simp [Ref.ofSlot]

theorem Ref.ofSlot_ne_null (slot : Nat) : Ref.ofSlot slot ≠ .null := by
  simp [Ref.ofSlot, Ref.null]

namespace Heap

/-! ## Cells in use -/

/-- The handle names a cell that is in use. -/
def Live (h : Heap) (r : Ref) : Prop :=
  ∃ cell, h.cell? r = some cell ∧ cell.isFree = false

/-- No cell in use carries a mark. -/
def Unmarked (h : Heap) : Prop :=
  ∀ (slot : Nat) (entry : Entry),
    h.cells[slot]? = some entry → entry.cell.isFree = false → entry.marked = false

@[simp] theorem cell?_null (h : Heap) : h.cell? .null = none := rfl

@[simp] theorem cell?_ofSlot (h : Heap) (slot : Nat) :
    h.cell? (.ofSlot slot) = (h.cells[slot]?).map Entry.cell := by
  simp only [cell?, entry?, Ref.slot?_ofSlot]
  cases h.cells[slot]? <;> rfl

theorem live_ofSlot {h : Heap} {slot : Nat} :
    h.Live (.ofSlot slot) ↔ ∃ entry, h.cells[slot]? = some entry ∧ entry.cell.isFree = false := by
  simp only [Live, cell?_ofSlot, Option.map_eq_some_iff]
  constructor
  · rintro ⟨_, ⟨entry, found, rfl⟩, used⟩
    exact ⟨entry, found, used⟩
  · rintro ⟨entry, found, used⟩
    exact ⟨_, ⟨entry, found, rfl⟩, used⟩

theorem not_live_null (h : Heap) : ¬ h.Live .null := by
  rintro ⟨_, found, _⟩
  simp at found

theorem Live.ne_null {h : Heap} {r : Ref} (live : h.Live r) : r ≠ .null := by
  rintro rfl
  exact h.not_live_null live

/-! ## What a cell holds -/

theorem scalar?_eq_some {h : Heap} {r : Ref} {s : Scalar} :
    h.scalar? r = some s ↔ h.cell? r = some (.scalar s) := by
  unfold Heap.scalar?
  cases h.cell? r with
  | none => simp
  | some cell => cases cell <;> simp

theorem pair?_eq_some {h : Heap} {r car cdr : Ref} :
    h.pair? r = some (car, cdr) ↔ h.cell? r = some (.pair car cdr) := by
  unfold Heap.pair?
  cases h.cell? r with
  | none => simp
  | some cell => cases cell <;> simp

theorem symbol?_eq_some {h : Heap} {r : Ref} {name : String} :
    h.symbol? r = some name ↔ h.cell? r = some (.scalar (.symbol name)) := by
  rw [← scalar?_eq_some]
  unfold Heap.symbol?
  cases h.scalar? r with
  | none => simp
  | some s => cases s <;> simp

theorem code?_eq_some {h : Heap} {r : Ref} {code : Code} :
    h.code? r = some code ↔ ∃ s, h.scalar? r = some s ∧ s.code? = some code := by
  unfold Heap.code?
  cases h.scalar? r <;> simp

theorem isSymbol_iff {h : Heap} {r : Ref} :
    h.isSymbol r = true ↔ ∃ name, h.cell? r = some (.scalar (.symbol name)) := by
  simp only [isSymbol, Option.isSome_iff_exists, symbol?_eq_some]

/-! ## The chain -/

/-- The slot holds a free cell. -/
def FreeAt (cells : Array Entry) (slot : Nat) : Prop :=
  ∃ entry, cells[slot]? = some entry ∧ entry.cell.isFree = true

/-- The free cells met from a handle on, in order. -/
inductive FreeChain (cells : Array Entry) : Ref → List Nat → Prop where
  | nil : FreeChain cells .null []
  | cons {slot : Nat} {next : Ref} {marked : Bool} {rest : List Nat} :
      cells[slot]? = some ⟨.free next, marked⟩ → FreeChain cells next rest →
      FreeChain cells (.ofSlot slot) (slot :: rest)

/-- A chain does not depend on the slots it does not pass. -/
theorem FreeChain.frame {cells cells' : Array Entry} {head : Ref} {slots : List Nat}
    (chain : FreeChain cells head slots)
    (same : ∀ slot ∈ slots, cells'[slot]? = cells[slot]?) : FreeChain cells' head slots := by
  induction chain with
  | nil => exact .nil
  | cons found _ ih =>
      refine .cons ((same _ (by simp)).trans found) (ih ?_)
      intro slot member
      exact same slot (List.mem_cons_of_mem _ member)

/-- The slots hold the same cells; marks may differ. -/
def SameCells (cells cells' : Array Entry) : Prop :=
  ∀ slot : Nat, (cells'[slot]?).map Entry.cell = (cells[slot]?).map Entry.cell

section

variable {cells cells' cells'' : Array Entry}

theorem SameCells.refl (cells : Array Entry) : SameCells cells cells := fun _ => rfl

theorem SameCells.trans (first : SameCells cells cells') (second : SameCells cells' cells'') :
    SameCells cells cells'' := fun slot => (second slot).trans (first slot)

theorem SameCells.symm (same : SameCells cells cells') : SameCells cells' cells :=
  fun slot => (same slot).symm

theorem SameCells.found (same : SameCells cells cells') {slot : Nat} {entry : Entry}
    (found : cells[slot]? = some entry) : ∃ marked, cells'[slot]? = some ⟨entry.cell, marked⟩ := by
  have eq := same slot
  rw [found, Option.map_some, Option.map_eq_some_iff] at eq
  obtain ⟨⟨cell, marked⟩, now, rfl⟩ := eq
  exact ⟨marked, now⟩

theorem SameCells.freeAt_iff (same : SameCells cells cells') (slot : Nat) :
    FreeAt cells' slot ↔ FreeAt cells slot := by
  constructor
  · rintro ⟨entry, found, free⟩
    obtain ⟨marked, before⟩ := same.symm.found found
    exact ⟨_, before, free⟩
  · rintro ⟨entry, found, free⟩
    obtain ⟨marked, now⟩ := same.found found
    exact ⟨_, now, free⟩

theorem SameCells.size (same : SameCells cells cells') : cells'.size = cells.size := by
  have bound : ∀ {a b : Array Entry}, SameCells a b → b.size ≤ a.size := by
    intro a b both
    have eq := both a.size
    rw [Array.getElem?_eq_none (Nat.le_refl _), Option.map_none, Option.map_eq_none_iff] at eq
    exact Array.getElem?_eq_none_iff.1 eq
  exact Nat.le_antisymm (bound same) (bound same.symm)

theorem FreeChain.sameCells {head : Ref} {slots : List Nat} (chain : FreeChain cells head slots)
    (same : SameCells cells cells') : FreeChain cells' head slots := by
  induction chain with
  | nil => exact .nil
  | cons found _ ih =>
      obtain ⟨marked, now⟩ := same.found found
      exact .cons now ih

end

theorem FreeChain.eq_nil {cells : Array Entry} {slots : List Nat}
    (chain : FreeChain cells .null slots) : slots = [] := by
  generalize head_eq : Ref.null = head at chain
  cases chain with
  | nil => rfl
  | cons => exact absurd head_eq.symm (Ref.ofSlot_ne_null _)

/-- The free list of a heap: whole arenas, a chain from the head that passes
    exactly the free cells, each once, and their number. -/
structure WellFormed (h : Heap) : Prop where
  arenas : h.arenaSize ∣ h.cells.size
  free : ∃ slots : List Nat, FreeChain h.cells h.freeHead slots ∧ slots.Nodup ∧
    (∀ slot, slot ∈ slots ↔ FreeAt h.cells slot) ∧ h.freeCount = slots.length

theorem wellFormed_ofArenaSize (size : Nat) : (ofArenaSize size).WellFormed where
  arenas := by simp [ofArenaSize]
  free := ⟨[], .nil, List.nodup_nil, by simp [ofArenaSize, FreeAt], rfl⟩

theorem wellFormed_ofConfig (config : Config) : (ofConfig config).WellFormed where
  arenas := by simp [ofConfig, ofArenaSize]
  free := ⟨[], .nil, List.nodup_nil, by simp [ofConfig, ofArenaSize, FreeAt], rfl⟩

theorem unmarked_ofArenaSize (size : Nat) : (ofArenaSize size).Unmarked := by
  intro slot entry found
  simp [ofArenaSize] at found

theorem unmarked_ofConfig (config : Config) : (ofConfig config).Unmarked := by
  intro slot entry found
  simp [ofConfig, ofArenaSize] at found

/-! ## Growth -/

theorem freshArena_getElem? (base size : Nat) (after : Ref) (i : Nat) :
    (freshArena base size after)[i]? =
      if i < size then
        some ⟨.free (if i + 1 < size then .ofSlot (base + i + 1) else after), false⟩
      else none := by
  simp [freshArena, Array.getElem?_ofFn]

/-- The heap with one more arena in front of its free list. -/
def grown (h : Heap) : Heap :=
  { h with
    cells := h.cells ++ freshArena h.cells.size h.arenaSize h.freeHead
    freeHead := .ofSlot h.cells.size
    freeCount := h.freeCount + h.arenaSize }

theorem grow_eq (h : Heap) :
    grow h = if h.mayGrow then .ok () h.grown else .error (.exhausted h.arenas) h := rfl

theorem grown_getElem?_old {h : Heap} {slot : Nat} (old : slot < h.cells.size) :
    h.grown.cells[slot]? = h.cells[slot]? := by
  simp [grown, Array.getElem?_append, old]

theorem grown_getElem?_new {h : Heap} {i : Nat} (inside : i < h.arenaSize) :
    h.grown.cells[h.cells.size + i]? =
      some ⟨.free (if i + 1 < h.arenaSize then .ofSlot (h.cells.size + i + 1)
        else h.freeHead), false⟩ := by
  simp [grown, Array.getElem?_append, freshArena_getElem?, inside]

theorem grown_size (h : Heap) : h.grown.cells.size = h.cells.size + h.arenaSize := by
  simp [grown, freshArena]

theorem grown_chain {h : Heap} (empty : h.freeHead = .null) (count : Nat) :
    ∀ i, i + count = h.arenaSize →
      FreeChain h.grown.cells (if i < h.arenaSize then .ofSlot (h.cells.size + i) else .null)
        (List.range' (h.cells.size + i) count) := by
  induction count with
  | zero =>
      intro i last
      rw [if_neg (by omega)]
      exact .nil
  | succ count ih =>
      intro i last
      rw [if_pos (by omega), List.range'_succ]
      refine .cons (grown_getElem?_new (by omega)) ?_
      rw [empty]
      exact ih (i + 1) (by omega)

theorem freeAt_grown {h : Heap} (slot : Nat) :
    FreeAt h.grown.cells slot ↔
      FreeAt h.cells slot ∨ (h.cells.size ≤ slot ∧ slot < h.cells.size + h.arenaSize) := by
  by_cases old : slot < h.cells.size
  · have outside : ¬ (h.cells.size ≤ slot ∧ slot < h.cells.size + h.arenaSize) := by omega
    simp only [FreeAt, grown_getElem?_old old, outside, or_false]
  · obtain ⟨i, rfl⟩ : ∃ i, slot = h.cells.size + i := ⟨slot - h.cells.size, by omega⟩
    have absent : ¬ FreeAt h.cells (h.cells.size + i) := by
      rintro ⟨entry, found, _⟩
      rw [Array.getElem?_eq_none (by omega)] at found
      cases found
    by_cases inside : i < h.arenaSize
    · refine ⟨fun _ => Or.inr ⟨by omega, by omega⟩, fun _ => ?_⟩
      exact ⟨_, grown_getElem?_new inside, rfl⟩
    · refine ⟨?_, ?_⟩
      · rintro ⟨entry, found, _⟩
        rw [Array.getElem?_eq_none (by rw [grown_size]; omega)] at found
        cases found
      · rintro (free | bounds)
        · exact absurd free absent
        · omega

theorem WellFormed.grown {h : Heap} (wf : h.WellFormed) (empty : h.freeHead = .null) :
    h.grown.WellFormed := by
  obtain ⟨slots, chain, _, exact_, count⟩ := wf.free
  rw [empty] at chain
  obtain rfl := chain.eq_nil
  refine ⟨?_, List.range' h.cells.size h.arenaSize, ?_, List.nodup_range', ?_, ?_⟩
  · rw [grown_size]
    exact Nat.dvd_add wf.arenas (Nat.dvd_refl _)
  · have start := grown_chain empty h.arenaSize 0 (by omega)
    rw [if_pos h.arenaSize_pos] at start
    exact start
  · intro slot
    rw [freeAt_grown, ← exact_ slot, List.mem_range'_1]
    simp
  · simp [Heap.grown, count]

theorem Unmarked.grown {h : Heap} (clear : h.Unmarked) : h.grown.Unmarked := by
  intro slot entry found used
  by_cases old : slot < h.cells.size
  · rw [grown_getElem?_old old] at found
    exact clear slot entry found used
  · obtain ⟨i, rfl⟩ : ∃ i, slot = h.cells.size + i := ⟨slot - h.cells.size, by omega⟩
    by_cases inside : i < h.arenaSize
    · rw [grown_getElem?_new inside] at found
      cases found
      rfl
    · rw [Array.getElem?_eq_none (by rw [grown_size]; omega)] at found
      cases found

/-- Growth leaves every cell of the old arenas alone, and new cells are free. -/
theorem live_grown {h : Heap} (r : Ref) : h.grown.Live r ↔ h.Live r := by
  rcases r.null_or_ofSlot with rfl | ⟨slot, rfl⟩
  · exact ⟨fun live => absurd live (not_live_null _), fun live => absurd live (not_live_null _)⟩
  · simp only [live_ofSlot]
    by_cases old : slot < h.cells.size
    · rw [grown_getElem?_old old]
    · rw [Array.getElem?_eq_none (by omega : h.cells.size ≤ slot)]
      refine ⟨?_, by simp⟩
      rintro ⟨entry, found, used⟩
      obtain ⟨i, rfl⟩ : ∃ i, slot = h.cells.size + i := ⟨slot - h.cells.size, by omega⟩
      by_cases inside : i < h.arenaSize
      · rw [grown_getElem?_new inside] at found
        cases found
        cases used
      · rw [Array.getElem?_eq_none (by rw [grown_size]; omega)] at found
        cases found

theorem cell?_grown {h : Heap} {r : Ref} (live : h.Live r) : h.grown.cell? r = h.cell? r := by
  rcases r.null_or_ofSlot with rfl | ⟨slot, rfl⟩
  · exact absurd live (not_live_null _)
  · obtain ⟨entry, found, _⟩ := live_ofSlot.1 live
    obtain ⟨old, _⟩ := Array.getElem?_eq_some_iff.1 found
    simp only [cell?_ofSlot, grown_getElem?_old old]

/-! ## Allocation -/

/-- The heap after its first free cell, at `slot`, was filled. -/
def placed (h : Heap) (slot : Nat) (next : Ref) (cell : Cell) : Heap :=
  { h with
    cells := h.cells.setIfInBounds slot ⟨cell, false⟩
    freeHead := next
    freeCount := h.freeCount - 1
    sinceCycle := h.sinceCycle + 1
    allocations := h.allocations + 1 }

theorem place_eq {h : Heap} {slot : Nat} {next : Ref} {marked : Bool} (cell : Cell)
    (head : h.freeHead = .ofSlot slot) (found : h.cells[slot]? = some ⟨.free next, marked⟩) :
    place cell h = .ok (.ofSlot slot) (h.placed slot next cell) := by
  simp [place, head, found, placed]

theorem alloc_eq (cell : Cell) (h : Heap) :
    alloc cell h =
      if h.freeHead.isNull then
        if h.mayGrow then place cell h.grown else .error (.exhausted h.arenas) h
      else place cell h := by
  have opened : alloc cell h =
      (if h.freeHead.isNull then grow >>= fun _ => place cell else place cell :
        EStateM HeapError Heap Ref) h := rfl
  rw [opened]
  cases h.freeHead.isNull with
  | false => rfl
  | true =>
      simp only [if_true, bind, EStateM.bind, grow_eq]
      cases h.mayGrow <;> rfl

/-- Every cell that is in use in the first heap has the same contents in the
    second. -/
def Keeps (h h' : Heap) : Prop := ∀ r, h.Live r → h'.cell? r = h.cell? r

theorem Keeps.refl (h : Heap) : h.Keeps h := fun _ _ => rfl

theorem Keeps.live {h h' : Heap} (kept : h.Keeps h') {r : Ref} (live : h.Live r) :
    h'.Live r := by
  obtain ⟨cell, found, used⟩ := live
  exact ⟨cell, (kept r ⟨cell, found, used⟩).trans found, used⟩

theorem Keeps.trans {a b c : Heap} (first : a.Keeps b) (second : b.Keeps c) : a.Keeps c := by
  intro r live
  exact (second r (first.live live)).trans (first r live)

/-- What an allocation does: a cell that was not in use holds the new contents,
    and all else is as it was. -/
structure Allocated (h : Heap) (cell : Cell) (r : Ref) (h' : Heap) : Prop where
  fresh : ¬ h.Live r
  found : h'.cell? r = some cell
  live_iff : ∀ other, h'.Live other ↔ other = r ∨ h.Live other
  kept : h.Keeps h'
  wellFormed : h'.WellFormed
  unmarked : h.Unmarked → h'.Unmarked
  maxArenas : h'.maxArenas = h.maxArenas

section

variable {h : Heap} {slot : Nat} {next : Ref} {marked : Bool} {cell : Cell}

theorem placed_getElem?_self (found : h.cells[slot]? = some ⟨.free next, marked⟩) :
    (h.placed slot next cell).cells[slot]? = some ⟨cell, false⟩ := by
  obtain ⟨inside, _⟩ := Array.getElem?_eq_some_iff.1 found
  simp [placed, inside]

theorem placed_getElem?_ne {other : Nat} (different : other ≠ slot) :
    (h.placed slot next cell).cells[other]? = h.cells[other]? := by
  simp [placed, Array.getElem?_setIfInBounds_ne (Ne.symm different)]

theorem not_live_of_free (found : h.cells[slot]? = some ⟨.free next, marked⟩) :
    ¬ h.Live (.ofSlot slot) := by
  rw [live_ofSlot]
  rintro ⟨entry, same, inUse⟩
  rw [found] at same
  cases same
  cases inUse

/-- The cell that is filled was not in use, so no cell in use is overwritten. -/
theorem keeps_placed (found : h.cells[slot]? = some ⟨.free next, marked⟩) :
    h.Keeps (h.placed slot next cell) := by
  intro r live
  rcases r.null_or_ofSlot with rfl | ⟨other, rfl⟩
  · exact absurd live (not_live_null _)
  · have different : other ≠ slot := by
      rintro rfl
      exact not_live_of_free found live
    simp only [cell?_ofSlot, placed_getElem?_ne different]

theorem live_placed (used : cell.isFree = false)
    (found : h.cells[slot]? = some ⟨.free next, marked⟩) (r : Ref) :
    (h.placed slot next cell).Live r ↔ r = .ofSlot slot ∨ h.Live r := by
  refine ⟨fun live => ?_, ?_⟩
  · rcases r.null_or_ofSlot with rfl | ⟨other, rfl⟩
    · exact absurd live (not_live_null _)
    · by_cases same : other = slot
      · exact Or.inl (by rw [same])
      · rw [live_ofSlot, placed_getElem?_ne same] at live
        exact Or.inr (live_ofSlot.2 live)
  · rintro (rfl | live)
    · exact live_ofSlot.2 ⟨_, placed_getElem?_self found, used⟩
    · exact (keeps_placed found).live live

/-- The free list loses its first cell and stays as it was behind it. -/
theorem WellFormed.placed (wf : h.WellFormed) (used : cell.isFree = false)
    (head : h.freeHead = .ofSlot slot) (found : h.cells[slot]? = some ⟨.free next, marked⟩) :
    (h.placed slot next cell).WellFormed := by
  refine ⟨by simpa [Heap.placed] using wf.arenas, ?_⟩
  obtain ⟨slots, chain, distinct, exact_, count⟩ := wf.free
  rw [head] at chain
  generalize head_eq : Ref.ofSlot slot = start at chain
  cases chain with
  | nil => exact absurd head_eq (Ref.ofSlot_ne_null _)
  | @cons first after _ rest found' tail =>
      obtain rfl := Ref.ofSlot_inj.1 head_eq
      rw [found] at found'
      cases found'
      rw [List.nodup_cons] at distinct
      refine ⟨rest, ?_, distinct.2, ?_, ?_⟩
      · refine tail.frame fun other member => placed_getElem?_ne ?_
        rintro rfl
        exact distinct.1 member
      · intro other
        by_cases same : other = slot
        · subst same
          refine ⟨fun member => absurd member distinct.1, ?_⟩
          rintro ⟨entry, now, free⟩
          rw [placed_getElem?_self found] at now
          cases now
          rw [used] at free
          cases free
        · rw [FreeAt, placed_getElem?_ne same, ← FreeAt, ← exact_ other, List.mem_cons]
          simp [same]
      · simp [Heap.placed, count]

theorem Unmarked.placed (clear : h.Unmarked)
    (found : h.cells[slot]? = some ⟨.free next, marked⟩) : (h.placed slot next cell).Unmarked := by
  intro other entry now inUse
  by_cases same : other = slot
  · subst same
    rw [placed_getElem?_self found] at now
    cases now
    rfl
  · rw [placed_getElem?_ne same] at now
    exact clear other entry now inUse

theorem allocated_placed (wf : h.WellFormed) (used : cell.isFree = false)
    (head : h.freeHead = .ofSlot slot) (found : h.cells[slot]? = some ⟨.free next, marked⟩) :
    h.Allocated cell (.ofSlot slot) (h.placed slot next cell) where
  fresh := not_live_of_free found
  found := by simp [placed_getElem?_self found]
  live_iff := live_placed used found
  kept := keeps_placed found
  wellFormed := wf.placed used head found
  unmarked clear := clear.placed found
  maxArenas := rfl

end

theorem WellFormed.head_cases {h : Heap} (wf : h.WellFormed) (some_ : h.freeHead ≠ .null) :
    ∃ slot next marked, h.freeHead = .ofSlot slot ∧
      h.cells[slot]? = some ⟨.free next, marked⟩ := by
  obtain ⟨slots, chain, _⟩ := wf.free
  generalize h.freeHead = head at chain some_
  cases chain with
  | nil => exact absurd rfl some_
  | cons found _ => exact ⟨_, _, _, rfl, found⟩

/-- Allocation gives out a cell that was not in use and changes nothing else, or
    it fails and leaves the heap as it was. -/
theorem alloc_cases {h : Heap} {cell : Cell} (wf : h.WellFormed) (used : cell.isFree = false) :
    (∃ r h', alloc cell h = .ok r h' ∧ h.Allocated cell r h') ∨
      (alloc cell h = .error (.exhausted h.arenas) h ∧ h.freeHead = .null ∧
        h.mayGrow = false) := by
  rw [alloc_eq]
  by_cases empty : h.freeHead = .null
  · rw [if_pos (by simp [empty])]
    cases room : h.mayGrow with
    | false => exact Or.inr ⟨rfl, empty, rfl⟩
    | true =>
        have wf' := wf.grown empty
        obtain ⟨slot, next, marked, head, found⟩ :=
          wf'.head_cases (Ref.ofSlot_ne_null h.cells.size)
        have step := allocated_placed wf' used head found
        refine Or.inl ⟨_, _, by rw [if_pos rfl, place_eq cell head found], ?_⟩
        refine ⟨fun live => step.fresh ((live_grown _).2 live), step.found, ?_, ?_,
          step.wellFormed, fun clear => step.unmarked clear.grown, step.maxArenas⟩
        · intro other
          rw [step.live_iff, live_grown]
        · intro r live
          exact (step.kept r ((live_grown r).2 live)).trans (cell?_grown live)
  · rw [if_neg (by simpa [Ref.isNull_iff] using empty)]
    obtain ⟨slot, next, marked, head, found⟩ := wf.head_cases empty
    exact Or.inl ⟨_, _, place_eq cell head found, allocated_placed wf used head found⟩

theorem alloc_ok {h h' : Heap} {cell : Cell} {r : Ref} (wf : h.WellFormed)
    (used : cell.isFree = false) (done : alloc cell h = .ok r h') : h.Allocated cell r h' := by
  rcases alloc_cases wf used with ⟨r', h'', eq, allocated⟩ | ⟨eq, _, _⟩
  · rw [done] at eq
    cases eq
    exact allocated
  · rw [done] at eq
    cases eq

theorem alloc_error {h h' : Heap} {cell : Cell} {e : HeapError} (wf : h.WellFormed)
    (used : cell.isFree = false) (done : alloc cell h = .error e h') : h' = h := by
  rcases alloc_cases wf used with ⟨r', h'', eq, _⟩ | ⟨eq, _, _⟩
  · rw [done] at eq
    cases eq
  · rw [done] at eq
    cases eq
    rfl

/-! ## Mutation -/

theorem modifyEntry_getElem? (h : Heap) (slot other : Nat) (f : Entry → Entry) :
    (h.modifyEntry (.ofSlot slot) f).cells[other]? =
      if slot = other then (h.cells[other]?).map f else h.cells[other]? := by
  simp [modifyEntry, Array.getElem?_modify]

/-- The free list does not depend on marks. -/
theorem WellFormed.sameCells {h h' : Heap} (wf : h.WellFormed) (same : SameCells h.cells h'.cells)
    (size : h'.arenaSize = h.arenaSize) (head : h'.freeHead = h.freeHead)
    (count : h'.freeCount = h.freeCount) : h'.WellFormed := by
  obtain ⟨slots, chain, distinct, exact_, number⟩ := wf.free
  refine ⟨by rw [size, same.size]; exact wf.arenas, slots, ?_, distinct, ?_, count.trans number⟩
  · rw [head]
    exact chain.sameCells same
  · exact fun slot => (exact_ slot).trans (same.freeAt_iff slot).symm

/-- Changing a cell in use into another one in use leaves the free list alone. -/
theorem WellFormed.modifyEntry {h : Heap} {r : Ref} {f : Entry → Entry} (wf : h.WellFormed)
    (live : h.Live r) (used : ∀ entry, entry.cell.isFree = false → (f entry).cell.isFree = false) :
    (h.modifyEntry r f).WellFormed := by
  rcases r.null_or_ofSlot with rfl | ⟨slot, rfl⟩
  · exact absurd live (not_live_null _)
  · obtain ⟨entry, found, inUse⟩ := live_ofSlot.1 live
    obtain ⟨slots, chain, distinct, exact_, count⟩ := wf.free
    have outside : slot ∉ slots := by
      rw [exact_ slot]
      rintro ⟨other, same, free⟩
      rw [found] at same
      cases same
      rw [inUse] at free
      cases free
    refine ⟨by simpa [Heap.modifyEntry] using wf.arenas, slots, ?_, distinct, ?_, count⟩
    · refine chain.frame fun other member => ?_
      have different : slot ≠ other := by
        rintro rfl
        exact outside member
      rw [modifyEntry_getElem?, if_neg different]
    · intro other
      rw [exact_ other]
      by_cases same : slot = other
      · subst same
        simp [FreeAt, modifyEntry_getElem?, found, inUse, used entry inUse]
      · simp [FreeAt, modifyEntry_getElem?, same]

theorem Unmarked.modifyEntry {h : Heap} {r : Ref} {f : Entry → Entry} (clear : h.Unmarked)
    (live : h.Live r) (quiet : ∀ entry, entry.marked = false → (f entry).marked = false) :
    (h.modifyEntry r f).Unmarked := by
  rcases r.null_or_ofSlot with rfl | ⟨slot, rfl⟩
  · exact absurd live (not_live_null _)
  · intro other entry found inUse
    rw [modifyEntry_getElem?] at found
    by_cases same : slot = other
    · subst same
      obtain ⟨old, oldFound, oldUsed⟩ := live_ofSlot.1 live
      rw [if_pos rfl, oldFound] at found
      cases found
      exact quiet old (clear slot old oldFound oldUsed)
    · rw [if_neg same] at found
      exact clear other entry found inUse

end Heap

end LispMachine
