import LispMachine.Proofs.Twins.Heap

/-!
# Structures without a cycle

Ways into a value without a cycle of pairs are no longer than the heap is large. No
cell comes to lie on a cycle as long as a new cell refers to nothing but cells that are
in use already: such a cell is above all others, wherever its place is. This order of
cells is kept by allocations, which put new cells on top, and by collections, which
take cells away.
-/

namespace LispMachine

namespace Heap

/-- No way through the pairs below a place comes round to where it was. -/
def Acyclic (h : Heap) (r : Ref) : Prop :=
  ∀ s, Relation.ReflTransGen h.HasHalf r s → ¬ Relation.TransGen h.HasHalf s s

section

variable {h : Heap} {r : Ref}

theorem Acyclic.bounded (acyclic : h.Acyclic r) : Bounded h.HasHalf h.cells.size r := by
  have held : Bounded h.HasHalf ((Finset.range h.cells.size).image Ref.ofSlot).card r := by
    refine bounded_of_acyclic (fun s t _ step => ?_) acyclic
    obtain ⟨car, cdr, found, _⟩ := step
    obtain ⟨slot, small, rfl⟩ := lt_size_of_pair? found
    exact Finset.mem_image_of_mem _ (Finset.mem_range.2 small)
  refine held.mono (le_trans Finset.card_image_le ?_)
  rw [Finset.card_range]

theorem acyclic_of_bounded {n : Nat} (within : Bounded h.HasHalf n r) : h.Acyclic r := by
  intro s way
  rcases Relation.reflTransGen_iff_eq_or_transGen.1 way with rfl | way
  · exact within.acyclic
  · obtain ⟨k, _, within'⟩ := within.descend way
    exact within'.acyclic

/-- What a list holds lies below the list. -/
theorem below_of_walk {bound : Nat} {found items : List Ref} {item : Ref}
    (done : h.walk bound r found = some items) (member : item ∈ items) :
    item ∈ found ∨ Relation.TransGen h.HasHalf r item := by
  induction bound generalizing r found with
  | zero => cases done
  | succ bound ih =>
      rcases walk_cases done with ⟨rfl, rfl⟩ | ⟨car, cdr, rest, halves, _⟩
      · exact .inl (List.mem_reverse.1 member)
      · rw [walk_pair halves] at done
        rcases ih done with held | below
        · rcases List.mem_cons.1 held with rfl | held
          · exact .inr (.single ⟨item, cdr, halves, .inl rfl⟩)
          · exact .inl held
        · exact .inr (.head ⟨car, cdr, halves, .inr rfl⟩ below)

theorem below_of_items? {items : List Ref} {item : Ref} (found : h.items? r = some items)
    (member : item ∈ items) : Relation.TransGen h.HasHalf r item := by
  rcases below_of_walk found member with none_ | below
  · cases none_
  · exact below

end

/-! ## Lists that end -/

/-- Following the second halves from the first place passes these items and ends at the
    last place, which is no pair. -/
inductive Spine (h : Heap) : Ref → List Ref → Ref → Prop where
  | nil {r : Ref} : h.pair? r = none → Spine h r [] r
  | cons {r car cdr last : Ref} {items : List Ref} : h.pair? r = some (car, cdr) →
      Spine h cdr items last → Spine h r (car :: items) last

section

variable {h : Heap} {r last : Ref} {items : List Ref}

theorem spine_of_bounded {n : Nat} (within : Bounded h.HasHalf n r) :
    ∃ items last, h.Spine r items last ∧ items.length ≤ n := by
  induction n generalizing r with
  | zero =>
      cases found : h.pair? r with
      | none => exact ⟨[], r, .nil found, Nat.le_refl 0⟩
      | some halves => exact absurd ⟨halves.1, halves.2, found, .inl rfl⟩ (within halves.1)
  | succ n ih =>
      cases found : h.pair? r with
      | none => exact ⟨[], r, .nil found, Nat.zero_le _⟩
      | some halves =>
          obtain ⟨items, last, spine, short⟩ :=
            ih (within halves.2 ⟨halves.1, halves.2, found, .inr rfl⟩)
          exact ⟨halves.1 :: items, last, .cons found spine, Nat.succ_le_succ short⟩

theorem Spine.walk (spine : h.Spine r items last) {bound : Nat} (enough : items.length < bound)
    (before : List Ref) :
    h.walk bound r before = if last.isNull then some (before.reverse ++ items) else none := by
  induction spine generalizing bound before with
  | @nil r other =>
      obtain ⟨n, rfl⟩ : ∃ n, bound = n + 1 := ⟨bound - 1, by omega⟩
      rw [Heap.walk, other]
      split <;> simp
  | cons found _ ih =>
      obtain ⟨n, rfl⟩ : ∃ n, bound = n + 1 := ⟨bound - 1, by omega⟩
      rw [walk_pair found, ih (by simpa using enough)]
      simp

/-- The items of a list without a cycle are those that are passed, if it ends in the empty
    list. -/
theorem Acyclic.items? (acyclic : h.Acyclic r) :
    ∃ items last, h.Spine r items last ∧
      h.items? r = if last.isNull then some items else none := by
  obtain ⟨items, last, spine, short⟩ := spine_of_bounded acyclic.bounded
  exact ⟨items, last, spine, spine.walk (Nat.lt_succ_of_le short) []⟩

end

/-! ## Cells and their children -/

/-- The first cell is in use, and the second refers to it. -/
def Child (h : Heap) (child parent : Ref) : Prop :=
  h.Live child ∧ ∃ cell, h.cell? parent = some cell ∧ child ∈ cell.children

/-- No cell is reached from itself, and each way from children to their children ends. -/
def Founded (h : Heap) : Prop := WellFounded h.Child

section

variable {h h' h'' : Heap} {r : Ref}

theorem Child.live {child parent : Ref} (edge : h.Child child parent) : h.Live parent := by
  obtain ⟨_, cell, found, member⟩ := edge
  refine ⟨cell, found, ?_⟩
  cases cell with
  | free next => cases member
  | pair _ _ => rfl
  | scalar _ => rfl

/-- What is not in use has no children. -/
theorem acc_of_not_live (other : ¬ h.Live r) : Acc h.Child r :=
  ⟨r, fun _ edge => absurd edge.live other⟩

/-- A founded heap has no cycle of pairs. -/
theorem Founded.acyclic (founded : h.Founded) (r : Ref) : h.Acyclic r := by
  have halves : WellFounded fun half r => h.HasHalf r half := by
    refine ⟨fun r => founded.induction r fun r ih => ⟨r, fun half edge => ?_⟩⟩
    obtain ⟨car, cdr, found, which⟩ := edge
    by_cases live : h.Live half
    · refine ih half ⟨live, .pair car cdr, pair?_eq_some.1 found, ?_⟩
      simpa [Cell.children] using which
    · -- A half that is no cell in use is no pair.
      refine ⟨half, fun next edge => ?_⟩
      obtain ⟨car, cdr, found, _⟩ := edge
      exact absurd ⟨_, pair?_eq_some.1 found, rfl⟩ live
  intro s _ cycle
  have turned := Relation.transGen_swap.1 cycle
  exact halves.transGen.asymmetric s s turned turned

/-- A heap that keeps some of the cells and their contents is founded. -/
theorem Founded.of_kept (founded : h.Founded) (kept : ∀ r, h'.Live r → h'.cell? r = h.cell? r) :
    h'.Founded := by
  refine Subrelation.wf (fun {child parent} edge => ?_) founded
  have parentLive := edge.live
  obtain ⟨⟨contents, there, used⟩, cell, found, member⟩ := edge
  have childKept := kept child ⟨contents, there, used⟩
  exact ⟨⟨contents, childKept.symm.trans there, used⟩, cell, (kept parent parentLive).symm.trans found,
    member⟩

/-- A new cell that refers to cells in use only is above all others. -/
theorem Founded.allocated {cell : Cell} (founded : h.Founded) (closed : h.Closed)
    (allocated : h.Allocated cell r h') (held : ∀ child ∈ cell.children, h.Held child) :
    h'.Founded := by
  have before : ∀ {child}, h.Held child → h'.Live child → h.Live child := by
    rintro child (rfl | live) ⟨_, found, _⟩
    · cases found
    · exact live
  have old : ∀ a, h.Live a → Acc h'.Child a := by
    intro a
    induction a using founded.induction with
    | _ a ih =>
        intro live
        refine ⟨a, fun child edge => ?_⟩
        obtain ⟨used, contents, found, member⟩ := edge
        rw [allocated.kept a live] at found
        have inside := before (closed a contents found child member) used
        exact ih child ⟨inside, contents, found, member⟩ inside
  refine ⟨fun a => ?_⟩
  by_cases live : h'.Live a
  · rcases (allocated.live_iff a).1 live with rfl | live
    · refine ⟨a, fun child edge => ?_⟩
      obtain ⟨used, contents, found, member⟩ := edge
      rw [allocated.found] at found
      cases found
      exact old child (before (held child member) used)
    · exact old a live
  · exact acc_of_not_live live

/-! ## Building -/

/-- The second heap comes from the first by allocating cells, each of which refers to
    nothing but the empty list and cells that were in use before it. -/
inductive Builds : Heap → Heap → Prop where
  | refl (h : Heap) : Builds h h
  | alloc {h h' h'' : Heap} {cell : Cell} {r : Ref} : Builds h h' →
      (∀ child ∈ cell.children, h'.Held child) → h'.Allocated cell r h'' → Builds h h''

theorem Builds.trans (first : h.Builds h') (second : h'.Builds h'') : h.Builds h'' := by
  induction second with
  | refl => exact first
  | alloc _ held allocated ih => exact .alloc ih held allocated

theorem Builds.keeps (builds : h.Builds h') : h.Keeps h' := by
  induction builds with
  | refl => exact .refl _
  | alloc _ _ allocated ih => exact ih.trans allocated.kept

theorem Builds.wellFormed (builds : h.Builds h') (wf : h.WellFormed) : h'.WellFormed := by
  induction builds with
  | refl => exact wf
  | alloc _ _ allocated _ => exact allocated.wellFormed

/-- Building keeps a heap founded. -/
theorem Builds.founded (builds : h.Builds h') (closed : h.Closed) (founded : h.Founded) :
    h'.Founded := by
  suffices both : h'.Closed ∧ h'.Founded from both.2
  induction builds with
  | refl => exact ⟨closed, founded⟩
  | alloc _ held allocated ih =>
      exact ⟨ih.1.allocated allocated held, ih.2.allocated ih.1 allocated held⟩

/-! ### Allocations -/

theorem builds_alloc {cell : Cell} (wf : h.WellFormed) (used : cell.isFree = false)
    (held : ∀ child ∈ cell.children, h.Held child) : h.Builds (after (alloc cell h)) := by
  rcases alloc_cases wf used with ⟨r, h', done, allocated⟩ | ⟨failed, _⟩
  · rw [done]
    exact .alloc (.refl h) held allocated
  · rw [failed]
    exact .refl h

/-- The pairs of a list are made from the last to the first. -/
theorem builds_listWithTail {items : List Ref} {tail : Ref} (wf : h.WellFormed)
    (all : ∀ item ∈ items, h.Held item) (last : h.Held tail) :
    h.Builds (after (listWithTail items tail h)) ∧
      ∀ r h', listWithTail items tail h = .ok r h' → h'.Held r := by
  induction items with
  | nil =>
      refine ⟨.refl h, ?_⟩
      rintro r h' ⟨⟩
      exact last
  | cons item items ih =>
      obtain ⟨builds, made⟩ := ih fun item member => all item (List.mem_cons_of_mem _ member)
      rw [listWithTail_cons]
      cases done : listWithTail items tail h with
      | error e h₁ =>
          rw [done] at builds
          exact ⟨builds, nofun⟩
      | ok rest h₁ =>
          rw [done] at builds
          have wf₁ := builds.wellFormed wf
          have held : ∀ child ∈ (Cell.pair item rest).children, h₁.Held child := by
            intro child member
            simp only [Cell.children, List.mem_cons, List.not_mem_nil, or_false] at member
            rcases member with rfl | rfl
            · exact builds.keeps.held (all child List.mem_cons_self)
            · exact made child h₁ done
          refine ⟨builds.trans (builds_alloc wf₁ rfl held), fun r h' placed => ?_⟩
          exact .inr ⟨_, (alloc_ok wf₁ rfl placed).found, rfl⟩

theorem builds_list {items : List Ref} (wf : h.WellFormed) (all : ∀ item ∈ items, h.Held item) :
    h.Builds (after (list items h)) :=
  (builds_listWithTail wf all (.inl rfl)).1

end

/-! ## Values that allocations leave alone -/

/-- A value without a cycle, all of which is in use. -/
structure Whole (h : Heap) (r : Ref) : Prop where
  acyclic : h.Acyclic r
  held : ∀ s, Relation.ReflTransGen h.HasHalf r s → h.Held s

section

variable {h h' : Heap} {r s : Ref}

theorem whole_null (h : Heap) : h.Whole .null := by
  have bare : ∀ s, ¬ h.HasHalf .null s := by
    rintro s ⟨_, _, found, _⟩
    cases found
  refine ⟨acyclic_of_bounded (n := 0) bare, fun s way => ?_⟩
  cases way.cases_head with
  | inl same => exact .inl same.symm
  | inr step =>
      obtain ⟨half, first, _⟩ := step
      exact absurd first (bare half)

theorem Whole.below (whole : h.Whole r) (way : Relation.ReflTransGen h.HasHalf r s) : h.Whole s :=
  ⟨fun t way' => whole.acyclic t (way.trans way'), fun t way' => whole.held t (way.trans way')⟩

/-- A cell in use that is kept has no other halves later. -/
theorem Keeps.hasHalf (keeps : h.Keeps h') (held : h.Held r) (half : h'.HasHalf r s) :
    h.HasHalf r s := by
  obtain ⟨car, cdr, found, which⟩ := half
  rcases held with rfl | live
  · cases found
  · refine ⟨car, cdr, ?_, which⟩
    rw [pair?_eq_some] at found ⊢
    rw [← keeps r live]
    exact found

theorem Whole.bounded (whole : h.Whole r) (keeps : h.Keeps h') {n : Nat}
    (within : Bounded h.HasHalf n r) : Bounded h'.HasHalf n r := by
  induction n generalizing r with
  | zero => exact fun half step => within half (keeps.hasHalf (whole.held r .refl) step)
  | succ n ih =>
      intro half step
      have before := keeps.hasHalf (whole.held r .refl) step
      exact ih (whole.below (.single before)) (within half before)

/-- Such a value stays as it is while cells in use are kept. -/
theorem Whole.kept (whole : h.Whole r) (keeps : h.Keeps h') : h'.Whole r where
  acyclic := acyclic_of_bounded (whole.bounded keeps whole.acyclic.bounded)
  held := by
    intro s way
    suffices before : Relation.ReflTransGen h.HasHalf r s from keeps.held (whole.held s before)
    induction way with
    | refl => exact .refl
    | tail _ step ih => exact ih.tail (keeps.hasHalf (whole.held _ ih) step)

/-- What lies below a value is the empty list or in use. -/
theorem Closed.below (closed : h.Closed) (way : Relation.TransGen h.HasHalf r s) : h.Held s := by
  have half : ∀ {a b}, h.HasHalf a b → h.Held b := by
    rintro a b ⟨car, cdr, found, which⟩
    refine closed a _ (pair?_eq_some.1 found) b ?_
    simpa [Cell.children] using which
  cases way with
  | single edge => exact half edge
  | tail _ edge => exact half edge

/-- In a founded heap whose cells refer to cells in use, every such value is whole. -/
theorem Founded.whole (founded : h.Founded) (closed : h.Closed) (held : h.Held r) : h.Whole r where
  acyclic := founded.acyclic r
  held := by
    intro s way
    rcases Relation.reflTransGen_iff_eq_or_transGen.1 way with rfl | way
    · exact held
    · exact closed.below way

end

end Heap

end LispMachine
