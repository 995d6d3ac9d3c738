import LispMachine.Proofs.Heap.FreeList

/-!
# Marking

Reachability is defined on the contents of cells, without the marks. Marking
ends, and then a cell in use is marked exactly when it is reachable from the
roots. The invariant says of every marked cell that it is reachable and that its
children are marked too, unless it still waits to be expanded.
-/

namespace LispMachine

/-- The handles in the contents of a cell: both halves of a pair, and the name,
    the constants and the home of a function or a macro. -/
inductive Cell.Refers : Cell → Ref → Prop where
  | car (car cdr : Ref) : Refers (.pair car cdr) car
  | cdr (car cdr : Ref) : Refers (.pair car cdr) cdr
  | name {s : Scalar} {code : Code} : s.code? = some code → Refers (.scalar s) code.name
  | constant {s : Scalar} {code : Code} {r : Ref} :
      s.code? = some code → r ∈ code.constants → Refers (.scalar s) r
  | home {s : Scalar} {code : Code} : s.code? = some code → Refers (.scalar s) code.home

theorem Scalar.mem_children {s : Scalar} {r : Ref} :
    r ∈ s.children ↔ ∃ code, s.code? = some code ∧
      (r = code.name ∨ r ∈ code.constants ∨ r = code.home) := by
  cases s <;> simp [Scalar.children, Scalar.code?, Code.children]

theorem Cell.mem_children {cell : Cell} {r : Ref} : r ∈ cell.children ↔ cell.Refers r := by
  constructor
  · intro member
    cases cell with
    | pair car cdr =>
        simp only [Cell.children, List.mem_cons, List.not_mem_nil, or_false] at member
        rcases member with rfl | rfl
        · exact .car _ _
        · exact .cdr _ _
    | scalar s =>
        obtain ⟨code, callable, rfl | member | rfl⟩ := Scalar.mem_children.1 member
        · exact .name callable
        · exact .constant callable member
        · exact .home callable
    | free next => cases member
  · intro refers
    cases refers with
    | car => simp [Cell.children]
    | cdr => simp [Cell.children]
    | name callable => exact Scalar.mem_children.2 ⟨_, callable, Or.inl rfl⟩
    | constant callable member => exact Scalar.mem_children.2 ⟨_, callable, Or.inr (Or.inl member)⟩
    | home callable => exact Scalar.mem_children.2 ⟨_, callable, Or.inr (Or.inr rfl)⟩

namespace Heap

/-- A cell in use that a root names, or that a reachable cell refers to. -/
inductive Reachable (h : Heap) (roots : List Ref) : Ref → Prop where
  | root {r : Ref} : r ∈ roots → h.Live r → Reachable h roots r
  | child {parent r : Ref} {cell : Cell} : Reachable h roots parent →
      h.cell? parent = some cell → cell.Refers r → h.Live r → Reachable h roots r

theorem Reachable.live {h : Heap} {roots : List Ref} {r : Ref} (reached : h.Reachable roots r) :
    h.Live r := by
  cases reached with
  | root _ live => exact live
  | child _ _ _ live => exact live

/-- The handle names a cell in use that carries a mark. -/
def Marked (cells : Array Entry) (r : Ref) : Prop :=
  ∃ slot entry, r = .ofSlot slot ∧ cells[slot]? = some entry ∧ entry.cell.isFree = false ∧
    entry.marked = true

/-- Number of cells in use that carry a mark. -/
def markedCount (cells : Array Entry) : Nat :=
  cells.countP fun entry => entry.marked && !entry.cell.isFree

theorem markedCount_le (cells : Array Entry) : markedCount cells ≤ cells.size :=
  Array.countP_le_size

namespace Marking

/-- The slots of a heap with one more mark. -/
def setMark (cells : Array Entry) (slot : Nat) : Array Entry :=
  cells.modify slot fun entry => { entry with marked := true }

theorem setMark_getElem? (cells : Array Entry) (slot other : Nat) :
    (setMark cells slot)[other]? =
      if slot = other then (cells[other]?).map fun entry => { entry with marked := true }
      else cells[other]? := by
  simp [setMark, Array.getElem?_modify]

theorem marked_setMark {cells : Array Entry} {slot : Nat} {entry : Entry}
    (found : cells[slot]? = some entry) (used : entry.cell.isFree = false) (r : Ref) :
    Marked (setMark cells slot) r ↔ r = .ofSlot slot ∨ Marked cells r := by
  constructor
  · rintro ⟨other, now, rfl, nowFound, nowUsed, nowMarked⟩
    rw [setMark_getElem?] at nowFound
    by_cases same : slot = other
    · exact Or.inl (by rw [same])
    · rw [if_neg same] at nowFound
      exact Or.inr ⟨other, now, rfl, nowFound, nowUsed, nowMarked⟩
  · rintro (rfl | ⟨other, old, rfl, oldFound, oldUsed, oldMarked⟩)
    · exact ⟨slot, { entry with marked := true }, rfl, by simp [setMark_getElem?, found], used, rfl⟩
    · refine ⟨other, { old with marked := true }, rfl, ?_, oldUsed, rfl⟩
      rw [setMark_getElem?, oldFound]
      by_cases same : slot = other
      · simp [same]
      · cases old
        simp_all

theorem markedCount_setMark {cells : Array Entry} {slot : Nat} {entry : Entry}
    (found : cells[slot]? = some entry) (used : entry.cell.isFree = false)
    (clear : entry.marked = false) : markedCount (setMark cells slot) = markedCount cells + 1 := by
  obtain ⟨inside, rfl⟩ := Array.getElem?_eq_some_iff.1 found
  have eq : setMark cells slot = cells.set slot { cells[slot] with marked := true } inside := by
    apply Array.ext_getElem?
    intro other
    rw [setMark_getElem?, Array.getElem?_set]
    by_cases same : slot = other
    · subst same
      simp [inside]
    · simp [same]
  rw [markedCount, eq, Array.countP_set inside]
  simp [markedCount, used, clear]

/-- A visit does nothing to a cell that is not in use or marked already, and
    marks every other cell. -/
theorem visit_cases (m : Marking) (r : Ref) :
    (m.visit r = m ∧ ((∀ slot entry, r = .ofSlot slot → m.cells[slot]? = some entry →
      entry.cell.isFree = true) ∨ Marked m.cells r)) ∨
    ∃ slot entry, r = .ofSlot slot ∧ m.cells[slot]? = some entry ∧
      entry.cell.isFree = false ∧ entry.marked = false ∧
      m.visit r = ⟨setMark m.cells slot, r :: m.wave, m.count + 1⟩ := by
  rcases r.null_or_ofSlot with rfl | ⟨slot, rfl⟩
  · refine Or.inl ⟨rfl, Or.inl ?_⟩
    intro slot entry same
    exact absurd same.symm (Ref.ofSlot_ne_null _)
  · cases found : m.cells[slot]? with
    | none =>
        refine Or.inl ⟨by simp [visit, found], Or.inl ?_⟩
        intro other entry same now
        rw [← Ref.ofSlot_inj.1 same, found] at now
        cases now
    | some entry =>
        cases used : entry.cell.isFree with
        | true =>
            refine Or.inl ⟨by simp [visit, found, used], Or.inl ?_⟩
            intro other now same nowFound
            rw [← Ref.ofSlot_inj.1 same, found] at nowFound
            cases nowFound
            exact used
        | false =>
            cases marked : entry.marked with
            | true =>
                exact Or.inl ⟨by simp [visit, found, marked],
                  Or.inr ⟨slot, entry, rfl, found, used, marked⟩⟩
            | false =>
                exact Or.inr ⟨slot, entry, rfl, found, used, marked,
                  by simp [visit, found, marked, used, setMark]⟩

/-! ## Contents -/

theorem sameCells_setMark (cells : Array Entry) (slot : Nat) :
    SameCells cells (setMark cells slot) := by
  intro other
  rw [setMark_getElem?]
  split
  · simp [Option.map_map, Function.comp_def]
  · rfl

theorem sameCells_visit (m : Marking) (r : Ref) : SameCells m.cells (m.visit r).cells := by
  rcases visit_cases m r with ⟨eq, _⟩ | ⟨slot, _, _, _, _, _, eq⟩
  · rw [eq]
    exact .refl _
  · rw [eq]
    exact sameCells_setMark _ slot

theorem sameCells_foldl_visit (targets : List Ref) (m : Marking) :
    SameCells m.cells (targets.foldl Marking.visit m).cells := by
  induction targets generalizing m with
  | nil => exact .refl _
  | cons target rest ih => exact (sameCells_visit m target).trans (ih _)

theorem sameCells_foldl_expand (wave : List Ref) (m : Marking) :
    SameCells m.cells (wave.foldl Marking.expand m).cells := by
  induction wave generalizing m with
  | nil => exact .refl _
  | cons r rest ih => exact (sameCells_foldl_visit _ m).trans (ih _)

theorem sameCells_spread (bound : Nat) (m : Marking) :
    SameCells m.cells (Marking.spread bound m).cells := by
  induction bound generalizing m with
  | zero => exact .refl _
  | succ bound ih =>
      unfold Marking.spread
      split
      · exact .refl _
      · exact (sameCells_foldl_expand m.wave { m with wave := [] }).trans (ih _)

/-- Marking changes marks only, also in a heap that has marks already. -/
theorem sameCells_run (cells : Array Entry) (roots : List Ref) :
    SameCells cells (Marking.run cells roots).cells :=
  (sameCells_foldl_visit roots ⟨cells, [], 0⟩).trans (sameCells_spread _ _)

/-! ## The invariant -/

/-- Marking in progress: only marks have changed, marked cells are reachable, and
    a marked cell has all its children marked unless it waits in the next wave or
    in `current`, the rest of the wave that is being expanded. -/
structure Invariant (h : Heap) (roots current : List Ref) (m : Marking) : Prop where
  size : m.cells.size = h.cells.size
  cell : ∀ slot : Nat, (m.cells[slot]?).map Entry.cell = (h.cells[slot]?).map Entry.cell
  free : ∀ (slot : Nat) (entry : Entry), m.cells[slot]? = some entry →
    entry.cell.isFree = true → h.cells[slot]? = some entry
  reached : ∀ r, Marked m.cells r → h.Reachable roots r
  closed : ∀ r, Marked m.cells r → r ∈ m.wave ++ current ∨
    ∀ cell child, h.cell? r = some cell → cell.Refers child → h.Live child →
      Marked m.cells child
  count : m.count = markedCount m.cells

variable {h : Heap} {roots current : List Ref} {m : Marking}

theorem Invariant.start (clear : h.Unmarked) (current : List Ref) :
    Invariant h roots current ⟨h.cells, [], 0⟩ := by
  have none_marked : ∀ r, ¬ Marked h.cells r := by
    rintro r ⟨slot, entry, rfl, found, used, marked⟩
    rw [clear slot entry found used] at marked
    cases marked
  refine ⟨rfl, fun _ => rfl, fun _ _ found _ => found, ?_, ?_, ?_⟩
  · exact fun r marked => absurd marked (none_marked r)
  · exact fun r marked => absurd marked (none_marked r)
  · rw [markedCount, eq_comm, Array.countP_eq_zero]
    intro entry member
    obtain ⟨slot, found⟩ := Array.getElem?_of_mem member
    cases used : entry.cell.isFree with
    | true => simp
    | false => simp [clear slot entry found used]

theorem Invariant.live_iff (inv : Invariant h roots current m) (r : Ref) :
    h.Live r ↔ ∃ slot entry, r = .ofSlot slot ∧ m.cells[slot]? = some entry ∧
      entry.cell.isFree = false := by
  rcases r.null_or_ofSlot with rfl | ⟨slot, rfl⟩
  · refine ⟨fun live => absurd live (not_live_null _), ?_⟩
    rintro ⟨slot, _, same, _⟩
    exact absurd same.symm (Ref.ofSlot_ne_null _)
  · have same := inv.cell slot
    rw [live_ofSlot]
    constructor
    · rintro ⟨entry, found, used⟩
      rw [found, Option.map_some, Option.map_eq_some_iff] at same
      obtain ⟨now, nowFound, eq⟩ := same
      exact ⟨slot, now, rfl, nowFound, by rw [eq, used]⟩
    · rintro ⟨other, entry, eq, found, used⟩
      obtain rfl := Ref.ofSlot_inj.1 eq
      rw [found, Option.map_some, eq_comm, Option.map_eq_some_iff] at same
      obtain ⟨old, oldFound, eq⟩ := same
      exact ⟨old, oldFound, by rw [eq, used]⟩

/-- Visiting a cell that is reachable, if it is in use, keeps the invariant. -/
theorem Invariant.visit (inv : Invariant h roots current m) {r : Ref}
    (target : h.Live r → h.Reachable roots r) : Invariant h roots current (m.visit r) := by
  rcases visit_cases m r with ⟨eq, _⟩ | ⟨slot, entry, rfl, found, used, clear, eq⟩
  · rw [eq]
    exact inv
  · rw [eq]
    have marked_iff := marked_setMark found used
    refine ⟨?_, ?_, ?_, ?_, ?_, ?_⟩
    · simpa [setMark] using inv.size
    · intro other
      rw [← inv.cell other]
      simp only [setMark_getElem?]
      split
      · simp [Option.map_map, Function.comp_def]
      · rfl
    · intro other now nowFound nowFree
      simp only [setMark_getElem?] at nowFound
      split at nowFound
      · next same =>
          subst same
          rw [found, Option.map_some] at nowFound
          cases nowFound
          rw [used] at nowFree
          cases nowFree
      · exact inv.free other now nowFound nowFree
    · intro r marked
      rcases (marked_iff r).1 marked with rfl | before
      · exact target ((inv.live_iff _).2 ⟨slot, entry, rfl, found, used⟩)
      · exact inv.reached r before
    · intro r marked
      rcases (marked_iff r).1 marked with rfl | before
      · exact Or.inl (by simp)
      · rcases inv.closed r before with waiting | done
        · exact Or.inl (by simpa using Or.inr waiting)
        · refine Or.inr fun cell child holds refers live => ?_
          exact (marked_iff child).2 (Or.inr (done cell child holds refers live))
    · simp only [markedCount_setMark found used clear, inv.count]

/-- A visit marks the cell, if it is in use. -/
theorem Invariant.marked_visit (inv : Invariant h roots current m) {r : Ref} (live : h.Live r) :
    Marked (m.visit r).cells r := by
  obtain ⟨slot, entry, rfl, found, used⟩ := (inv.live_iff r).1 live
  rcases visit_cases m (.ofSlot slot) with ⟨eq, free | marked⟩ | ⟨other, now, same, nowFound, nowUsed, _, eq⟩
  · rw [free slot entry rfl found] at used
    cases used
  · rw [eq]
    exact marked
  · rw [eq]
    exact (marked_setMark nowFound nowUsed _).2 (Or.inl same)

theorem marked_visit_of_marked {r : Ref} (marked : Marked m.cells r) (other : Ref) :
    Marked (m.visit other).cells r := by
  rcases visit_cases m other with ⟨eq, _⟩ | ⟨slot, entry, rfl, found, used, _, eq⟩
  · rw [eq]
    exact marked
  · rw [eq]
    exact (marked_setMark found used r).2 (Or.inr marked)

theorem visit_count (m : Marking) (r : Ref) :
    (m.visit r).count + m.wave.length = m.count + (m.visit r).wave.length := by
  rcases visit_cases m r with ⟨eq, _⟩ | ⟨slot, entry, rfl, found, used, _, eq⟩
  · rw [eq]
  · rw [eq]
    simp only [List.length_cons]
    omega

/-! ## Folds of visits -/

theorem marked_foldl_of_marked {r : Ref} (targets : List Ref) (m : Marking)
    (marked : Marked m.cells r) : Marked (targets.foldl Marking.visit m).cells r := by
  induction targets generalizing m with
  | nil => exact marked
  | cons target rest ih => exact ih (m.visit target) (marked_visit_of_marked marked target)

theorem foldl_visit_count (targets : List Ref) (m : Marking) :
    (targets.foldl Marking.visit m).count + m.wave.length =
      m.count + (targets.foldl Marking.visit m).wave.length := by
  induction targets generalizing m with
  | nil => rfl
  | cons target rest ih =>
      have first := visit_count m target
      have later := ih (m.visit target)
      simp only [List.foldl_cons]
      omega

theorem Invariant.foldl_visit (targets : List Ref) (inv : Invariant h roots current m)
    (reachable : ∀ r ∈ targets, h.Live r → h.Reachable roots r) :
    Invariant h roots current (targets.foldl Marking.visit m) ∧
      ∀ r ∈ targets, h.Live r → Marked (targets.foldl Marking.visit m).cells r := by
  induction targets generalizing m with
  | nil => exact ⟨inv, by simp⟩
  | cons target rest ih =>
      have step := inv.visit (reachable target (by simp))
      obtain ⟨inv', all⟩ := ih step fun r member => reachable r (List.mem_cons_of_mem _ member)
      refine ⟨inv', ?_⟩
      intro r member live
      rcases List.mem_cons.1 member with rfl | member
      · exact marked_foldl_of_marked rest _ (inv.marked_visit live)
      · exact all r member live

/-! ## Waves -/

theorem Invariant.mem_childrenOf (inv : Invariant h roots current m) {r child : Ref} :
    child ∈ childrenOf m.cells r ↔ ∃ cell, h.cell? r = some cell ∧ cell.Refers child := by
  rcases r.null_or_ofSlot with rfl | ⟨slot, rfl⟩
  · simp [childrenOf, Ref.slot?, Ref.null]
    exact fun _ found => absurd found (by simp [cell?, entry?, Ref.slot?])
  · have same := inv.cell slot
    simp only [childrenOf, Ref.slot?_ofSlot, cell?_ofSlot, ← same]
    cases m.cells[slot]? with
    | none => simp
    | some entry => simp [Cell.mem_children]

/-- Expanding the first cell of the current wave takes it off the list of cells
    that wait. -/
theorem Invariant.expand {r : Ref} (inv : Invariant h roots (r :: current) m)
    (reached : h.Reachable roots r) : Invariant h roots current (m.expand r) := by
  have children_reachable : ∀ child ∈ childrenOf m.cells r, h.Live child →
      h.Reachable roots child := by
    intro child member live
    obtain ⟨cell, found, refers⟩ := inv.mem_childrenOf.1 member
    exact .child reached found refers live
  obtain ⟨inv', all⟩ := inv.foldl_visit _ children_reachable
  refine ⟨inv'.size, inv'.cell, inv'.free, inv'.reached, ?_, inv'.count⟩
  intro other marked
  rcases inv'.closed other marked with waiting | done
  · rcases List.mem_append.1 waiting with new | rest
    · exact Or.inl (List.mem_append_left _ new)
    · rcases List.mem_cons.1 rest with rfl | rest
      · refine Or.inr fun cell child found refers live => ?_
        exact all child (inv.mem_childrenOf.2 ⟨cell, found, refers⟩) live
      · exact Or.inl (List.mem_append_right _ rest)
  · exact Or.inr done

theorem Invariant.foldl_expand (wave : List Ref) (inv : Invariant h roots wave m)
    (reached : ∀ r ∈ wave, h.Reachable roots r) :
    Invariant h roots [] (wave.foldl Marking.expand m) := by
  induction wave generalizing m with
  | nil => exact inv
  | cons r rest ih =>
      refine ih (inv.expand (reached r (by simp))) ?_
      exact fun other member => reached other (List.mem_cons_of_mem _ member)

theorem foldl_expand_count (wave : List Ref) (m : Marking) :
    (wave.foldl Marking.expand m).count + m.wave.length =
      m.count + (wave.foldl Marking.expand m).wave.length := by
  induction wave generalizing m with
  | nil => rfl
  | cons r rest ih =>
      have first := foldl_visit_count (childrenOf m.cells r) m
      have later := ih (m.expand r)
      simp only [List.foldl_cons, Marking.expand] at later ⊢
      omega

theorem marked_foldl_expand {r : Ref} (wave : List Ref) (m : Marking)
    (marked : Marked m.cells r) : Marked (wave.foldl Marking.expand m).cells r := by
  induction wave generalizing m with
  | nil => exact marked
  | cons first rest ih => exact ih _ (marked_foldl_of_marked _ m marked)

/-- Between two waves: the invariant holds with nothing half expanded, the wave
    is marked and so are all roots in use. -/
structure Settled (h : Heap) (roots : List Ref) (m : Marking) : Prop where
  invariant : Invariant h roots [] m
  waveReached : ∀ r ∈ m.wave, h.Reachable roots r
  rootsMarked : ∀ r ∈ roots, h.Live r → Marked m.cells r

theorem visit_wave (m : Marking) (r : Ref) :
    ∀ x ∈ (m.visit r).wave, x ∈ m.wave ∨ Marked (m.visit r).cells x := by
  rcases visit_cases m r with ⟨eq, _⟩ | ⟨slot, entry, rfl, found, used, _, eq⟩
  · rw [eq]
    exact fun x member => Or.inl member
  · rw [eq]
    intro x member
    rcases List.mem_cons.1 member with rfl | member
    · exact Or.inr ((marked_setMark found used _).2 (Or.inl rfl))
    · exact Or.inl member

theorem foldl_visit_wave (targets : List Ref) (m : Marking) :
    ∀ x ∈ (targets.foldl Marking.visit m).wave,
      x ∈ m.wave ∨ Marked (targets.foldl Marking.visit m).cells x := by
  induction targets generalizing m with
  | nil => exact fun x member => Or.inl member
  | cons target rest ih =>
      intro x member
      rcases ih (m.visit target) x member with earlier | marked
      · rcases visit_wave m target x earlier with before | marked
        · exact Or.inl before
        · exact Or.inr (marked_foldl_of_marked rest _ marked)
      · exact Or.inr marked

theorem foldl_expand_wave (wave : List Ref) (m : Marking) :
    ∀ x ∈ (wave.foldl Marking.expand m).wave,
      x ∈ m.wave ∨ Marked (wave.foldl Marking.expand m).cells x := by
  induction wave generalizing m with
  | nil => exact fun x member => Or.inl member
  | cons r rest ih =>
      intro x member
      rcases ih (m.expand r) x member with earlier | marked
      · rcases foldl_visit_wave _ m x earlier with before | marked
        · exact Or.inl before
        · exact Or.inr (marked_foldl_expand rest _ marked)
      · exact Or.inr marked

/-- One wave keeps what holds between waves. -/
theorem Settled.wave (settled : Settled h roots m) :
    Settled h roots (m.wave.foldl Marking.expand { m with wave := [] }) := by
  have inv := settled.invariant
  have opened : Invariant h roots m.wave { m with wave := [] } := by
    refine ⟨inv.size, inv.cell, inv.free, inv.reached, ?_, inv.count⟩
    simpa using inv.closed
  have next := opened.foldl_expand m.wave settled.waveReached
  refine ⟨next, ?_, ?_⟩
  · intro r member
    rcases foldl_expand_wave m.wave { m with wave := [] } r member with none | marked
    · cases none
    · exact next.reached r marked
  · intro r member live
    exact marked_foldl_expand m.wave _ (settled.rootsMarked r member live)

theorem Settled.spread (bound : Nat) (settled : Settled h roots m) :
    Settled h roots (Marking.spread bound m) := by
  induction bound generalizing m with
  | zero => exact settled
  | succ bound ih =>
      unfold Marking.spread
      split
      · exact settled
      · exact ih settled.wave

/-- The bound is large enough: every wave but the last marks a cell, so the waves
    run out before the bound does. -/
theorem Settled.spread_wave (bound : Nat) (settled : Settled h roots m)
    (enough : h.cells.size < bound + m.count) : (Marking.spread bound m).wave = [] := by
  induction bound generalizing m with
  | zero =>
      have most := markedCount_le m.cells
      rw [← settled.invariant.count, settled.invariant.size] at most
      omega
  | succ bound ih =>
      unfold Marking.spread
      split
      · assumption
      · have grew := foldl_expand_count m.wave { m with wave := [] }
        simp only [List.length_nil, Nat.add_zero] at grew
        cases next : (m.wave.foldl Marking.expand { m with wave := [] }).wave with
        | nil =>
            -- Nothing was marked, so the next round stops at once.
            cases bound with
            | zero => exact next
            | succ bound =>
                unfold Marking.spread
                rw [next]
                exact next
        | cons first rest =>
            refine ih settled.wave ?_
            rw [next, List.length_cons] at grew
            omega

/-! ## The whole of marking -/

theorem Settled.first (roots : List Ref) (clear : h.Unmarked) :
    Settled h roots (roots.foldl Marking.visit ⟨h.cells, [], 0⟩) := by
  have start : Invariant h roots [] ⟨h.cells, [], 0⟩ := Invariant.start clear []
  obtain ⟨inv, all⟩ := start.foldl_visit roots fun r member live => .root member live
  refine ⟨inv, ?_, all⟩
  intro r member
  rcases foldl_visit_wave roots ⟨h.cells, [], 0⟩ r member with none | marked
  · cases none
  · exact inv.reached r marked

theorem settled_run (roots : List Ref) (clear : h.Unmarked) :
    Settled h roots (Marking.run h.cells roots) :=
  (Settled.first roots clear).spread _

/-- Marking stops because no cell waits any more, not because of its bound. -/
theorem run_wave (clear : h.Unmarked) : (Marking.run h.cells roots).wave = [] := by
  have first := Settled.first roots clear
  refine first.spread_wave _ ?_
  rw [first.invariant.size]
  omega

/-- After marking, the marked cells are exactly the reachable ones. -/
theorem marked_run_iff (clear : h.Unmarked) (r : Ref) :
    Marked (Marking.run h.cells roots).cells r ↔ h.Reachable roots r := by
  have settled := settled_run roots clear
  refine ⟨settled.invariant.reached r, ?_⟩
  intro reached
  induction reached with
  | root member live => exact settled.rootsMarked _ member live
  | child _ found refers live ih =>
      rcases settled.invariant.closed _ ih with waiting | done
      · rw [run_wave clear] at waiting
        cases waiting
      · exact done _ _ found refers live

end Marking

end Heap

end LispMachine
