import LispMachine.Proofs.Heap.Accounting
import LispMachine.Proofs.Heap.Founded

/-!
# Lists that are built and read back

A list is built from its last pair to its first. Each pair takes a cell that was not in
use, so it can be neither a pair of the tail nor one of the pairs made before it, and the
chain that was there stays as it is. What is read back are the items, for as long as
collections are told of the list.
-/

namespace LispMachine

namespace Heap

/-! ## Chains -/

/-- Pairs that hold these items one after the other, and at their end the empty list or a
    scalar. -/
structure Chain (h : Heap) (r : Ref) (items : List Ref) (last : Ref) : Prop where
  spine : h.Spine r items last
  ends : last = .null ∨ ∃ s, h.scalar? last = some s

section

variable {h h' : Heap} {r last : Ref} {items : List Ref}

theorem live_of_scalar? {s : Scalar} (found : h.scalar? r = some s) : h.Live r :=
  ⟨_, scalar?_eq_some.1 found, rfl⟩

theorem pair?_congr (same : h'.cell? r = h.cell? r) : h'.pair? r = h.pair? r := by
  unfold pair?
  rw [same]

theorem Chain.null_or_live (chain : h.Chain r items last) : r = .null ∨ h.Live r := by
  obtain ⟨spine, ends⟩ := chain
  cases spine with
  | nil _ =>
      rcases ends with null | ⟨s, found⟩
      · exact .inl null
      · exact .inr (live_of_scalar? found)
  | cons found _ => exact .inr (live_of_pair? found)

/-- The items of a chain that ends in the empty list; there are none otherwise. -/
theorem Chain.items? (chain : h.Chain r items last) :
    h.items? r = if last = .null then some items else none := by
  have enough : h.cells.size < h.cells.size + items.length + 1 := by omega
  rw [items?_eq_walk enough r, chain.spine.walk (by omega) []]
  by_cases null : last = .null
  · simp [null]
  · simp [null, Ref.isNull_iff]

/-- A chain is still there when every cell that it comes to holds what it held. -/
theorem Chain.frame (chain : h.Chain r items last) (visited : Ref → Prop) (first : visited r)
    (next : ∀ s car cdr, visited s → h.pair? s = some (car, cdr) → cdr = .null ∨ h.Live cdr →
      visited cdr)
    (same : ∀ s, visited s → h.Live s → h'.cell? s = h.cell? s) : h'.Chain r items last := by
  obtain ⟨spine, ends⟩ := chain
  induction spine with
  | @nil r other =>
      rcases ends with rfl | ⟨s, found⟩
      · exact ⟨.nil rfl, .inl rfl⟩
      · have kept := same r first (live_of_scalar? found)
        refine ⟨.nil ?_, .inr ⟨s, ?_⟩⟩
        · rw [pair?_congr kept, other]
        · rw [scalar?_eq_some, kept, ← scalar?_eq_some, found]
  | @cons r car cdr last items found rest ih =>
      have onward : h.Chain cdr items last := ⟨rest, ends⟩
      have there := ih (next r car cdr first found onward.null_or_live) ends
      refine ⟨.cons ?_ there.spine, there.ends⟩
      rw [pair?_congr (same r first (live_of_pair? found)), found]

/-- What keeps the cells in use keeps chains. -/
theorem Chain.keeps (chain : h.Chain r items last) (kept : h.Keeps h') : h'.Chain r items last :=
  chain.frame (fun _ => True) trivial (fun _ _ _ _ _ _ => trivial) fun s _ live => kept s live

/-- A collection keeps the chains that its roots name. -/
theorem Chain.collect (chain : h.Chain r items last) (clear : h.Unmarked) {roots : List Ref}
    (root : r ∈ roots) : (h.collect roots).2.Chain r items last := by
  refine chain.frame (fun s => h.Live s → h.Reachable roots s) (.root root) ?_ ?_
  · intro s car cdr reached found _ live
    exact .child (reached (live_of_pair? found)) (pair?_eq_some.1 found) (.cdr car cdr) live
  · intro s reached live
    exact cell?_collect clear ((live_collect_iff clear s).2 ⟨live, reached live⟩)

end

/-! ## Cells that are not touched -/

/-- Every cell in use in the first heap is in the second as it was, its mark included. -/
def Spares (h h' : Heap) : Prop := ∀ r, h.Live r → entry? h' r = entry? h r

section

variable {h h' h'' : Heap}

theorem Spares.refl (h : Heap) : h.Spares h := fun _ _ => rfl

theorem Spares.keeps (spares : h.Spares h') : h.Keeps h' := by
  intro r live
  unfold cell?
  rw [spares r live]

theorem Spares.trans (first : h.Spares h') (second : h'.Spares h'') : h.Spares h'' :=
  fun r live => (second r (first.keeps.live live)).trans (first r live)

/-- An allocation takes a free cell or one of a new arena. -/
theorem spares_alloc {cell : Cell} {r : Ref} (wf : h.WellFormed) (done : alloc cell h = .ok r h') :
    h.Spares h' := by
  intro s live
  rcases s.null_or_ofSlot with rfl | ⟨slot, rfl⟩
  · exact absurd live (not_live_null h)
  · obtain ⟨entry, found, used⟩ := live_ofSlot.1 live
    have inside : slot < h.cells.size := (Array.getElem?_eq_some_iff.1 found).1
    have allocates := alloc_allocates wf cell
    rw [done] at allocates
    cases allocates with
    | @takes taken _ _ takes =>
        have different : slot ≠ taken := by
          rintro rfl
          rcases takes.place with ⟨other, same, free⟩ | ⟨beyond, _⟩
          · rw [found] at same
            cases same
            rw [used] at free
            cases free
          · omega
        simpa [ entry?] using takes.kept slot different inside

end

/-! ## Building -/

/-- What building a list in front of a chain comes to. -/
inductive Built (h : Heap) (items : List Ref) (last : Ref) :
    EStateM.Result HeapError Heap Ref → Prop where
  | made {list : Ref} {h' : Heap} : h'.Chain list items last → h'.WellFormed →
      (h.Unmarked → h'.Unmarked) → h.Spares h' → Built h items last (.ok list h')
  | full {e : HeapError} {h' : Heap} : h'.IsFull → h'.WellFormed → h.Spares h' →
      Built h items last (.error e h')

/-- The pair in front of a list takes a cell that is not in use. -/
theorem built_cons {h : Heap} {item rest last : Ref} {items : List Ref} (wf : h.WellFormed)
    (chain : h.Chain rest items last) : h.Built (item :: items) last (cons item rest h) := by
  have used : (Cell.pair item rest).isFree = false := rfl
  rw [cons]
  rcases alloc_cases wf used with ⟨r, h', done, allocated⟩ | ⟨failed, empty, room⟩
  · have there := chain.keeps allocated.kept
    rw [done]
    refine .made ⟨.cons ?_ there.spine, there.ends⟩ allocated.wellFormed allocated.unmarked
      (spares_alloc wf done)
    exact pair?_eq_some.2 allocated.found
  · rw [failed]
    exact .full (wf.isFull_iff.2 ⟨empty, room⟩) wf (.refl h)

theorem Built.after {h h' : Heap} {items : List Ref} {last : Ref}
    {result : EStateM.Result HeapError Heap Ref} (unmarked : h.Unmarked → h'.Unmarked)
    (spares : h.Spares h') (built : h'.Built items last result) : h.Built items last result := by
  cases built with
  | made chain wf unmarked' spares' =>
      exact .made chain wf (fun clear => unmarked' (unmarked clear)) (spares.trans spares')
  | full full wf spares' => exact .full full wf (spares.trans spares')

/-- The items are put in front of the chain of the tail, the last one first. -/
theorem built_listWithTail {h : Heap} {tail last : Ref} {more : List Ref} (wf : h.WellFormed)
    (chain : h.Chain tail more last) (items : List Ref) :
    h.Built (items ++ more) last (listWithTail items tail h) := by
  induction items with
  | nil => exact .made chain wf id (.refl h)
  | cons item items ih =>
      rw [listWithTail_cons]
      cases begun : listWithTail items tail h with
      | error e h₁ =>
          rw [begun] at ih
          cases ih with
          | full full wf₁ spares => exact .full full wf₁ spares
      | ok rest h₁ =>
          rw [begun] at ih
          cases ih with
          | made chain₁ wf₁ unmarked spares => exact (built_cons wf₁ chain₁).after unmarked spares

/-! ## Keeping a list -/

/-- The second heap comes from the first by allocations, which may fail, and by collections
    that find no mark when they start and have the list among their roots. -/
inductive Retains (list : Ref) (h : Heap) : Heap → Prop where
  | refl : Retains list h h
  | alloc {h' : Heap} (cell : Cell) : Retains list h h' → cell.isFree = false →
      Retains list h (after (alloc cell h'))
  | collect {h' : Heap} (roots : List Ref) : Retains list h h' → h'.Unmarked → list ∈ roots →
      Retains list h (h'.collect roots).2

/-- A chain lasts as long as collections are told of it. -/
theorem Retains.chain {h later : Heap} {list last : Ref} {items : List Ref}
    (retains : Retains list h later) (wf : h.WellFormed) (chain : h.Chain list items last) :
    later.WellFormed ∧ later.Chain list items last := by
  induction retains with
  | refl => exact ⟨wf, chain⟩
  | alloc cell _ used ih =>
      obtain ⟨wf', chain'⟩ := ih
      rcases alloc_cases wf' used with ⟨r, h', done, allocated⟩ | ⟨failed, _⟩
      · rw [done]
        exact ⟨allocated.wellFormed, chain'.keeps allocated.kept⟩
      · rw [failed]
        exact ⟨wf', chain'⟩
  | collect roots _ clear root ih =>
      obtain ⟨wf', chain'⟩ := ih
      exact ⟨wellFormed_collect wf', chain'.collect clear root⟩

/-- Building a list and reading it back, with any items, whether they name cells or not, and
    in front of any chain that ends in the empty list or in a scalar. If the list is made,
    its items are the given ones and those of the tail, or there are none when the tail ends
    in a scalar; and this stays so under allocations and under collections that are told of
    the list, and no mark is added. Otherwise there was no room for one of the pairs. Both
    ways the free list is sound, and every cell that was in use is as it was. -/
theorem lists_are_read_back (h : Heap) (wf : h.WellFormed) (items : List Ref) (tail : Ref)
    (more : List Ref) (last : Ref) (spine : h.Spine tail more last)
    (ends : last = .null ∨ ∃ s, h.scalar? last = some s) :
    match listWithTail items tail h with
    | .ok list h' =>
        h'.items? list = (if last = .null then some (items ++ more) else none) ∧
        (∀ later, Retains list h' later →
          later.items? list = if last = .null then some (items ++ more) else none) ∧
        h'.WellFormed ∧ (h.Unmarked → h'.Unmarked) ∧ ∀ r, h.Live r → entry? h' r = entry? h r
    | .error _ h' => h'.IsFull ∧ h'.WellFormed ∧ ∀ r, h.Live r → entry? h' r = entry? h r := by
  have built := built_listWithTail wf ⟨spine, ends⟩ items
  cases done : listWithTail items tail h with
  | ok list h' =>
      rw [done] at built
      cases built with
      | made chain wf' unmarked spares =>
          refine ⟨chain.items?, fun later retains => ?_, wf', unmarked, spares⟩
          exact (retains.chain wf' chain).2.items?
  | error e h' =>
      rw [done] at built
      cases built with
      | full full wf' spares => exact ⟨full, wf', spares⟩

theorem unmarked_of_all {h : Heap}
    (all : h.cells.all (fun entry => entry.cell.isFree || !entry.marked) = true) : h.Unmarked := by
  intro slot entry found used
  obtain ⟨inside, rfl⟩ := Array.getElem?_eq_some_iff.1 found
  have clear := Array.all_eq_true.1 all slot inside
  rw [used] at clear
  simpa using clear

/-- Two arenas of two cells: an integer, a list of it, a cell that a collection has freed,
    and a cell that was never used. -/
def halfUsed : Heap :=
  (ofArenaSize 2).performAll [.integer 7, .cons ⟨1⟩ .null, .cons .null .null, .collect [⟨2⟩]]

/-- Whether a list was made. -/
def isMade : EStateM.Result HeapError Heap Ref → Bool
  | .ok _ _ => true
  | .error _ _ => false

theorem exists_of_isMade {result : EStateM.Result HeapError Heap Ref}
    (made : isMade result = true) : ∃ list h', result = .ok list h' := by
  cases result with
  | ok list h' => exact ⟨list, h', rfl⟩
  | error e h' => cases made

theorem exists_of_not_isMade {result : EStateM.Result HeapError Heap Ref}
    (failed : isMade result = false) : ∃ e h', result = .error e h' := by
  cases result with
  | ok list h' => cases failed
  | error e h' => exact ⟨e, h', rfl⟩

/-- A list whose items name the freed cell twice, which becomes a pair of the list, nothing,
    and a cell beyond the heap, in front of the list that is there and in front of the
    integer; and with no room for its last pairs. -/
theorem lists_are_read_back_sample :
    (halfUsed.WellFormed ∧ halfUsed.Unmarked ∧ halfUsed.Spine ⟨2⟩ [⟨1⟩] .null) ∧
    (∃ list h', listWithTail [⟨3⟩, .null, ⟨3⟩, ⟨9⟩] ⟨2⟩ halfUsed = .ok list h' ∧
      h'.items? list = some [⟨3⟩, .null, ⟨3⟩, ⟨9⟩, ⟨1⟩] ∧
      (h'.collect [list]).2.items? list = some [⟨3⟩, .null, ⟨3⟩, ⟨9⟩, ⟨1⟩]) ∧
    (∃ list h', listWithTail [⟨3⟩] ⟨1⟩ halfUsed = .ok list h' ∧ h'.items? list = none) ∧
    ∃ e h', listWithTail [⟨3⟩, .null, ⟨3⟩, ⟨9⟩] ⟨2⟩ { halfUsed with maxArenas := some 2 } =
      .error e h' ∧ h'.IsFull := by
  have wf : halfUsed.WellFormed := (performAll_accounts (wellFormed_ofArenaSize 2) _).wellFormed
  have wf' : ({ halfUsed with maxArenas := some 2 } : Heap).WellFormed := ⟨wf.arenas, wf.free⟩
  have clear : halfUsed.Unmarked := unmarked_of_all (by decide +kernel)
  have spine : halfUsed.Spine ⟨2⟩ [⟨1⟩] .null := .cons rfl (.nil rfl)
  have first := lists_are_read_back halfUsed wf [⟨3⟩, .null, ⟨3⟩, ⟨9⟩] ⟨2⟩ [⟨1⟩] .null spine
    (.inl rfl)
  have second := lists_are_read_back halfUsed wf [⟨3⟩] ⟨1⟩ [] ⟨1⟩ (.nil rfl) (.inr ⟨_, rfl⟩)
  have third := lists_are_read_back { halfUsed with maxArenas := some 2 } wf'
    [⟨3⟩, .null, ⟨3⟩, ⟨9⟩] ⟨2⟩ [⟨1⟩] .null (.cons rfl (.nil rfl)) (.inl rfl)
  refine ⟨⟨wf, clear, spine⟩, ?_, ?_, ?_⟩
  · obtain ⟨list, h', made⟩ := @exists_of_isMade
      (listWithTail [⟨3⟩, .null, ⟨3⟩, ⟨9⟩] ⟨2⟩ halfUsed) (by decide +kernel)
    rw [made] at first
    obtain ⟨here, later, _, unmarked, _⟩ := first
    exact ⟨list, h', made, here,
      later _ (.collect _ .refl (unmarked clear) (List.mem_singleton.2 rfl))⟩
  · obtain ⟨list, h', made⟩ := @exists_of_isMade (listWithTail [⟨3⟩] ⟨1⟩ halfUsed)
      (by decide +kernel)
    rw [made] at second
    exact ⟨list, h', made, second.1⟩
  · obtain ⟨e, h', failed⟩ := @exists_of_not_isMade
      (listWithTail [⟨3⟩, .null, ⟨3⟩, ⟨9⟩] ⟨2⟩ { halfUsed with maxArenas := some 2 })
      (by decide +kernel)
    rw [failed] at third
    exact ⟨e, h', failed, third.1⟩

end Heap

end LispMachine
