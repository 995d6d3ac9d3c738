import LispMachine.Proofs.Heap.Collect
import LispMachine.Proofs.Heap.Height
import LispMachine.Proofs.Machine.Growth
import LispMachine.Store
import Mathlib.Data.List.Forall2

/-!
# Heaps that differ in the places of their cells

Two machines that run the same program under different settings give its cells
different places and keep different garbage. Ties say which cells stand for each
other, and tied cells have the same contents up to ties.
-/

namespace LispMachine

/-- Pairs of cells of two heaps that stand for each other. -/
abbrev Ties := List (Ref × Ref)

/-- Both handles are the empty list, or a tie holds them together. -/
def Tied (ties : Ties) (a b : Ref) : Prop := (a = .null ∧ b = .null) ∨ (a, b) ∈ ties

theorem Tied.null (ties : Ties) : Tied ties .null .null := Or.inl ⟨rfl, rfl⟩

theorem Tied.mono {ties ties' : Ties} {a b : Ref} (tied : Tied ties a b) (sub : ties ⊆ ties') :
    Tied ties' a b := by
  rcases tied with null | member
  · exact Or.inl null
  · exact Or.inr (sub member)

theorem forall₂_mem_left {α β : Type} {p : α → β → Prop} {first : List α} {second : List β}
    (all : List.Forall₂ p first second) {a : α} (member : a ∈ first) : ∃ b ∈ second, p a b := by
  induction all with
  | nil => cases member
  | cons head _ ih =>
      rcases List.mem_cons.1 member with rfl | inside
      · exact ⟨_, List.mem_cons_self, head⟩
      · obtain ⟨b, found, related⟩ := ih inside
        exact ⟨b, List.mem_cons_of_mem _ found, related⟩

theorem forall₂_imp_mem {α β : Type} {p q : α → β → Prop} {first : List α} {second : List β}
    (all : List.Forall₂ p first second)
    (imp : ∀ a ∈ first, ∀ b ∈ second, p a b → q a b) : List.Forall₂ q first second := by
  induction all with
  | nil => exact .nil
  | cons head _ ih =>
      refine .cons (imp _ List.mem_cons_self _ List.mem_cons_self head) (ih ?_)
      intro a member b member'
      exact imp a (List.mem_cons_of_mem _ member) b (List.mem_cons_of_mem _ member')

/-! ## Contents -/

/-- Code that is the same up to related cells. -/
structure Code.Resembles (related : Ref → Ref → Prop) (c d : Code) : Prop where
  name : related c.name d.name
  params : c.params = d.params
  takesRest : c.takesRest = d.takesRest
  slots : c.slots = d.slots
  constants : List.Forall₂ related c.constants.toList d.constants.toList
  words : c.words = d.words
  home : related c.home d.home

/-- Scalars that are the same up to related cells. Callables that re-enter the machine
    are left out. -/
inductive Scalar.Resembles (related : Ref → Ref → Prop) : Scalar → Scalar → Prop where
  | integer (value : Int64) : Resembles related (.integer value) (.integer value)
  | symbol (name : String) : Resembles related (.symbol name) (.symbol name)
  | builtin (builtin : Builtin) :
      Resembles related (.native (.builtin builtin)) (.native (.builtin builtin))
  | function {c d : Code} : c.Resembles related d → Resembles related (.function c) (.function d)
  | expander {c d : Code} : c.Resembles related d → Resembles related (.expander c) (.expander d)
  | moduleCell (id : ModuleId) : Resembles related (.moduleCell id) (.moduleCell id)

/-- Cells in use with contents that are the same up to related cells. -/
inductive Cell.Resembles (related : Ref → Ref → Prop) : Cell → Cell → Prop where
  | pair {a a' b b' : Ref} : related a b → related a' b' →
      Resembles related (.pair a a') (.pair b b')
  | scalar {s t : Scalar} : s.Resembles related t → Resembles related (.scalar s) (.scalar t)

section

variable {related related' : Ref → Ref → Prop}

theorem Code.Resembles.imp {c d : Code} (same : c.Resembles related d)
    (imp : ∀ a ∈ c.children, ∀ b ∈ d.children, related a b → related' a b) :
    c.Resembles related' d where
  name := imp _ List.mem_cons_self _ List.mem_cons_self same.name
  params := same.params
  takesRest := same.takesRest
  slots := same.slots
  constants := by
    refine forall₂_imp_mem same.constants fun a member b member' => imp a ?_ b ?_
    · simp [Code.children, Array.mem_toList_iff.1 member]
    · simp [Code.children, Array.mem_toList_iff.1 member']
  words := same.words
  home := imp _ (by simp [Code.children]) _ (by simp [Code.children]) same.home

theorem Scalar.Resembles.imp {s t : Scalar} (same : s.Resembles related t)
    (imp : ∀ a ∈ s.children, ∀ b ∈ t.children, related a b → related' a b) :
    s.Resembles related' t := by
  cases same with
  | integer value => exact .integer value
  | symbol name => exact .symbol name
  | builtin builtin => exact .builtin builtin
  | function code => exact .function (code.imp imp)
  | expander code => exact .expander (code.imp imp)
  | moduleCell id => exact .moduleCell id

theorem Cell.Resembles.imp {c d : Cell} (same : c.Resembles related d)
    (imp : ∀ a ∈ c.children, ∀ b ∈ d.children, related a b → related' a b) :
    c.Resembles related' d := by
  cases same with
  | pair first second =>
      refine .pair (imp _ ?_ _ ?_ first) (imp _ ?_ _ ?_ second) <;> simp [Cell.children]
  | scalar scalar => exact .scalar (scalar.imp imp)

theorem Code.Resembles.flip {c d : Code} (same : c.Resembles related d) :
    d.Resembles (flip related) c where
  name := same.name
  params := same.params.symm
  takesRest := same.takesRest.symm
  slots := same.slots.symm
  constants := .flip same.constants
  words := same.words.symm
  home := same.home

theorem Cell.Resembles.flip {c d : Cell} (same : c.Resembles related d) :
    d.Resembles (flip related) c := by
  cases same with
  | pair first second => exact .pair first second
  | scalar scalar =>
      cases scalar with
      | integer value => exact .scalar (.integer value)
      | symbol name => exact .scalar (.symbol name)
      | builtin builtin => exact .scalar (.builtin builtin)
      | function code => exact .scalar (.function code.flip)
      | expander code => exact .scalar (.expander code.flip)
      | moduleCell id => exact .scalar (.moduleCell id)

theorem Cell.Resembles.used {c d : Cell} (same : c.Resembles related d) :
    c.isFree = false ∧ d.isFree = false := by
  cases same <;> exact ⟨rfl, rfl⟩

theorem Cell.Resembles.plain {c d : Cell} (same : c.Resembles related d) :
    (∀ probe, c ≠ .scalar (.native (.probe probe))) ∧
      ∀ probe, d ≠ .scalar (.native (.probe probe)) := by
  cases same with
  | pair _ _ => exact ⟨by simp, by simp⟩
  | scalar scalar => cases scalar <;> exact ⟨by simp, by simp⟩

theorem Code.Resembles.child {c d : Code} (same : c.Resembles related d) {a : Ref}
    (member : a ∈ c.children) : ∃ b, related a b := by
  simp only [Code.children, List.mem_cons, List.mem_append, List.not_mem_nil, or_false] at member
  rcases member with rfl | constant | rfl
  · exact ⟨_, same.name⟩
  · obtain ⟨b, _, tied⟩ := forall₂_mem_left same.constants constant
    exact ⟨b, tied⟩
  · exact ⟨_, same.home⟩

/-- Each child of a cell is related to another. -/
theorem Cell.Resembles.child {c d : Cell} (same : c.Resembles related d) {a : Ref}
    (member : a ∈ c.children) : ∃ b, related a b := by
  cases same with
  | pair first second =>
      simp only [Cell.children, List.mem_cons, List.not_mem_nil, or_false] at member
      rcases member with rfl | rfl
      · exact ⟨_, first⟩
      · exact ⟨_, second⟩
  | scalar scalar =>
      cases scalar with
      | function code => exact code.child member
      | expander code => exact code.child member
      | integer _ => cases member
      | symbol _ => cases member
      | builtin _ => cases member
      | moduleCell _ => cases member

theorem Cell.Resembles.mono {ties ties' : Ties} {c d : Cell} (same : c.Resembles (Tied ties) d)
    (sub : ties ⊆ ties') : c.Resembles (Tied ties') d :=
  same.imp fun _ _ _ _ tied => tied.mono sub

theorem Code.Resembles.mono {ties ties' : Ties} {c d : Code} (same : c.Resembles (Tied ties) d)
    (sub : ties ⊆ ties') : c.Resembles (Tied ties') d :=
  same.imp fun _ _ _ _ tied => tied.mono sub

end

/-! ## Handles -/

namespace Heap

/-- The handle is the empty list or names a cell in use. -/
def Held (h : Heap) (r : Ref) : Prop := r = .null ∨ h.Live r

theorem Keeps.held {h h' : Heap} (kept : h.Keeps h') {r : Ref} (held : h.Held r) : h'.Held r :=
  held.imp id kept.live

end Heap

/-! ## Ties that hold -/

/-- The ties hold: no cell has two of them, and tied cells have the same contents up to
    ties. -/
structure Paired (h k : Heap) (ties : Ties) : Prop where
  found : ∀ {a b : Ref}, (a, b) ∈ ties →
    ∃ c d, h.cell? a = some c ∧ k.cell? b = some d ∧ c.Resembles (Tied ties) d
  eq_iff : ∀ {a b a' b' : Ref}, (a, b) ∈ ties → (a', b') ∈ ties → (a = a' ↔ b = b')

section

variable {h k h' k' : Heap} {ties : Ties}

theorem Paired.nil : Paired h k [] := ⟨by simp, by simp⟩

theorem Paired.live (paired : Paired h k ties) {a b : Ref} (member : (a, b) ∈ ties) :
    h.Live a ∧ k.Live b := by
  obtain ⟨c, d, first, second, same⟩ := paired.found member
  exact ⟨⟨c, first, same.used.1⟩, ⟨d, second, same.used.2⟩⟩

theorem Paired.held (paired : Paired h k ties) {a b : Ref} (tied : Tied ties a b) :
    h.Held a ∧ k.Held b := by
  rcases tied with ⟨rfl, rfl⟩ | member
  · exact ⟨Or.inl rfl, Or.inl rfl⟩
  · exact (paired.live member).imp Or.inr Or.inr

/-- A new tie of cells that had none. -/
theorem Paired.cons (paired : Paired h k ties) {a b : Ref} {c d : Cell}
    (apart : ∀ p ∈ ties, p.1 ≠ a) (apart' : ∀ p ∈ ties, p.2 ≠ b) (first : h.cell? a = some c)
    (second : k.cell? b = some d) (same : c.Resembles (Tied ties) d) :
    Paired h k ((a, b) :: ties) where
  found := by
    intro x y member
    rcases List.mem_cons.1 member with eq | inside
    · cases eq
      exact ⟨c, d, first, second, same.mono (List.subset_cons_self _ _)⟩
    · obtain ⟨c, d, first, second, same⟩ := paired.found inside
      exact ⟨c, d, first, second, same.mono (List.subset_cons_self _ _)⟩
  eq_iff := by
    intro x y x' y' member member'
    rcases List.mem_cons.1 member with eq | inside
    · cases eq
      rcases List.mem_cons.1 member' with eq' | inside'
      · cases eq'
        exact ⟨fun _ => rfl, fun _ => rfl⟩
      · exact ⟨fun same => absurd same.symm (apart _ inside'),
          fun same => absurd same.symm (apart' _ inside')⟩
    · rcases List.mem_cons.1 member' with eq' | inside'
      · cases eq'
        exact ⟨fun same => absurd same (apart _ inside), fun same => absurd same (apart' _ inside)⟩
      · exact paired.eq_iff inside inside'

/-- Those ties hold whose cells and contents are kept. -/
theorem Paired.restrict {kept : Ref × Ref → Prop} (paired : Paired h k ties)
    (same₁ : ∀ p ∈ ties, kept p → h'.cell? p.1 = h.cell? p.1)
    (same₂ : ∀ p ∈ ties, kept p → k'.cell? p.2 = k.cell? p.2)
    (closed : ∀ p ∈ ties, kept p → ∀ q ∈ ties, ∀ c d, h.cell? p.1 = some c → k.cell? p.2 = some d →
      q.1 ∈ c.children → q.2 ∈ d.children → kept q) :
    ∃ ties', Paired h' k' ties' ∧ ∀ p, p ∈ ties' ↔ p ∈ ties ∧ kept p := by
  classical
  have exact_ : ∀ p, p ∈ ties.filter (fun p => decide (kept p)) ↔ p ∈ ties ∧ kept p := by
    simp [List.mem_filter]
  refine ⟨_, ⟨fun {a b} member => ?_, fun member member' => ?_⟩, exact_⟩
  · obtain ⟨inside, keeps⟩ := (exact_ _).1 member
    obtain ⟨c, d, first, second, same⟩ := paired.found inside
    refine ⟨c, d, (same₁ _ inside keeps).trans first, (same₂ _ inside keeps).trans second, ?_⟩
    refine same.imp fun x child y child' tied => ?_
    rcases tied with null | tie
    · exact Or.inl null
    · exact Or.inr ((exact_ _).2 ⟨tie, closed _ inside keeps _ tie c d first second child child'⟩)
  · exact paired.eq_iff ((exact_ _).1 member).1 ((exact_ _).1 member').1

/-- Ties hold as long as the tied cells keep their contents. -/
theorem Paired.keeps (paired : Paired h k ties) (first : h.Keeps h') (second : k.Keeps k') :
    Paired h' k' ties where
  found := by
    intro a b member
    obtain ⟨c, d, held, held', same⟩ := paired.found member
    obtain ⟨live, live'⟩ := paired.live member
    exact ⟨c, d, (first a live).trans held, (second b live').trans held', same⟩
  eq_iff := paired.eq_iff

end

/-! ## Heaps -/

namespace Heap

/-- Cells refer to the empty list and to cells in use only. -/
def Closed (h : Heap) : Prop :=
  ∀ r cell, h.cell? r = some cell → ∀ child ∈ cell.children, h.Held child

/-- A new cell refers to cells that were in use before it. -/
theorem Closed.allocated {h h' : Heap} {cell : Cell} {r : Ref} (closed : h.Closed)
    (allocated : h.Allocated cell r h') (held : ∀ child ∈ cell.children, h.Held child) :
    h'.Closed := by
  intro other contents found child member
  cases used : contents.isFree with
  | true =>
      cases contents with
      | free next => cases member
      | pair _ _ => cases used
      | scalar _ => cases used
  | false =>
      rcases (allocated.live_iff other).1 ⟨_, found, used⟩ with rfl | live
      · rw [allocated.found] at found
        cases found
        exact allocated.kept.held (held child member)
      · rw [allocated.kept other live] at found
        exact allocated.kept.held (closed other contents found child member)

/-- What a machine relies on: a sound free list, no marks left over, no callable that
    re-enters the machine, and no cell that refers to a free one. -/
structure Tidy (h : Heap) : Prop where
  wellFormed : h.WellFormed
  unmarked : h.Unmarked
  plain : Machine.OnlyBuiltins h
  closed : h.Closed

theorem Tidy.allocated {h h' : Heap} {cell : Cell} {r : Ref} (tidy : h.Tidy)
    (allocated : h.Allocated cell r h') (plain : ∀ probe, cell ≠ .scalar (.native (.probe probe)))
    (held : ∀ child ∈ cell.children, h.Held child) : h'.Tidy where
  wellFormed := allocated.wellFormed
  unmarked := allocated.unmarked tidy.unmarked
  plain := by
    intro other probe found
    rw [scalar?_eq_some] at found
    rcases (allocated.live_iff other).1 ⟨_, found, rfl⟩ with rfl | live
    · rw [allocated.found] at found
      exact plain probe (Option.some.inj found)
    · rw [allocated.kept other live] at found
      exact tidy.plain other probe (scalar?_eq_some.2 found)
  closed := tidy.closed.allocated allocated held

/-- What a collection leaves refers to nothing that it frees. -/
theorem Closed.collect {h : Heap} (closed : h.Closed) (clear : h.Unmarked) (roots : List Ref) :
    (h.collect roots).2.Closed := by
  intro r cell found child member
  have used : cell.isFree = false := by
    cases cell with
    | free next => cases member
    | pair _ _ => rfl
    | scalar _ => rfl
  have live : (h.collect roots).2.Live r := ⟨cell, found, used⟩
  rw [cell?_collect clear live] at found
  have reached := ((live_collect_iff clear r).1 live).2
  rcases closed r cell found child member with null | inside
  · exact Or.inl null
  · exact Or.inr ((live_collect_iff clear child).2
      ⟨inside, reached.child found (Cell.mem_children.1 member) inside⟩)

/-- Tidy heaps whose ties hold. -/
structure Twins (ties : Ties) (h k : Heap) : Prop where
  tidy₁ : h.Tidy
  tidy₂ : k.Tidy
  paired : Paired h k ties

section

variable {h k : Heap} {ties : Ties} {a b : Ref}

theorem Twins.cell? (twins : h.Twins ties k) (tied : Tied ties a b) :
    Option.Rel (Cell.Resembles (Tied ties)) (h.cell? a) (k.cell? b) := by
  rcases tied with ⟨rfl, rfl⟩ | member
  · exact .none
  · obtain ⟨c, d, first, second, same⟩ := twins.paired.found member
    rw [first, second]
    exact .some same

theorem Twins.isNull (twins : h.Twins ties k) (tied : Tied ties a b) : a.isNull = b.isNull := by
  rcases tied with ⟨rfl, rfl⟩ | member
  · rfl
  · obtain ⟨first, second⟩ := twins.paired.live member
    rw [Bool.eq_iff_iff, Ref.isNull_iff, Ref.isNull_iff]
    exact ⟨fun null => absurd null first.ne_null, fun null => absurd null second.ne_null⟩

theorem Twins.eq_iff (twins : h.Twins ties k) (tied : Tied ties a b) {a' b' : Ref}
    (tied' : Tied ties a' b') : a = a' ↔ b = b' := by
  rcases tied with ⟨rfl, rfl⟩ | member
  · rw [eq_comm, ← Ref.isNull_iff, twins.isNull tied', Ref.isNull_iff, eq_comm]
  · rcases tied' with ⟨rfl, rfl⟩ | member'
    · rw [← Ref.isNull_iff, twins.isNull (Or.inr member), Ref.isNull_iff]
    · exact twins.paired.eq_iff member member'

theorem Twins.scalar? (twins : h.Twins ties k) (tied : Tied ties a b) :
    Option.Rel (Scalar.Resembles (Tied ties)) (h.scalar? a) (k.scalar? b) := by
  have cells := twins.cell? tied
  unfold Heap.scalar?
  generalize h.cell? a = first, k.cell? b = second at cells
  cases cells with
  | none => exact .none
  | some same =>
      cases same with
      | pair _ _ => exact .none
      | scalar scalar => exact .some scalar

theorem Twins.pair? (twins : h.Twins ties k) (tied : Tied ties a b) :
    Option.Rel (fun p q => Tied ties p.1 q.1 ∧ Tied ties p.2 q.2) (h.pair? a) (k.pair? b) := by
  have cells := twins.cell? tied
  unfold Heap.pair?
  generalize h.cell? a = first, k.cell? b = second at cells
  cases cells with
  | none => exact .none
  | some same =>
      cases same with
      | pair first second => exact .some ⟨first, second⟩
      | scalar _ => exact .none

theorem Twins.integer? (twins : h.Twins ties k) (tied : Tied ties a b) :
    h.integer? a = k.integer? b := by
  have scalars := twins.scalar? tied
  unfold Heap.integer?
  generalize h.scalar? a = first, k.scalar? b = second at scalars
  cases scalars with
  | none => rfl
  | some same => cases same <;> rfl

theorem Twins.symbol? (twins : h.Twins ties k) (tied : Tied ties a b) :
    h.symbol? a = k.symbol? b := by
  have scalars := twins.scalar? tied
  unfold Heap.symbol?
  generalize h.scalar? a = first, k.scalar? b = second at scalars
  cases scalars with
  | none => rfl
  | some same => cases same <;> rfl

theorem Twins.isSymbol (twins : h.Twins ties k) (tied : Tied ties a b) :
    h.isSymbol a = k.isSymbol b := by
  rw [Heap.isSymbol, Heap.isSymbol, twins.symbol? tied]

theorem Twins.keyword? (twins : h.Twins ties k) (tied : Tied ties a b) :
    h.keyword? a = k.keyword? b := by
  rw [Heap.keyword?, Heap.keyword?, twins.symbol? tied]

/-- Walking along tied lists. -/
theorem Twins.walk (twins : h.Twins ties k) (tied : Tied ties a b) (bound : Nat)
    {found found' : List Ref} (before : List.Forall₂ (Tied ties) found found') :
    Option.Rel (List.Forall₂ (Tied ties)) (h.walk bound a found) (k.walk bound b found') := by
  induction bound generalizing a b found found' with
  | zero => exact .none
  | succ bound ih =>
      have halves := twins.pair? tied
      rw [Heap.walk, Heap.walk, twins.isNull tied]
      split
      · exact .some (List.forall₂_reverse_iff.2 before)
      · generalize h.pair? a = first, k.pair? b = second at halves
        cases halves with
        | none => exact .none
        | some both => exact ih both.2 (.cons both.1 before)

/-- Tied lists have tied items. -/
theorem Twins.items? (twins : h.Twins ties k) (tied : Tied ties a b) :
    Option.Rel (List.Forall₂ (Tied ties)) (h.items? a) (k.items? b) := by
  have enough : h.cells.size < h.cells.size + k.cells.size + 1 := by omega
  have enough' : k.cells.size < h.cells.size + k.cells.size + 1 := by omega
  rw [items?_eq_walk enough, items?_eq_walk enough']
  exact twins.walk tied _ .nil

/-- From tied handles on, as many pairs follow one another. -/
theorem Twins.passes (twins : h.Twins ties k) (tied : Tied ties a b) (count : Nat) :
    h.passes count a = k.passes count b := by
  induction count generalizing a b with
  | zero => rfl
  | succ count ih =>
      have halves := twins.pair? tied
      rw [Heap.passes, Heap.passes]
      generalize h.pair? a = first, k.pair? b = second at halves
      cases halves with
      | none => rfl
      | some both => exact ih both.2

theorem Twins.isEndless (twins : h.Twins ties k) (tied : Tied ties a b) :
    h.isEndless a = k.isEndless b := by
  have same : h.isEndless a = false ↔ k.isEndless b = false := by
    simp only [isEndless_eq_false, twins.passes tied]
  rwa [← Bool.not_eq_true, ← Bool.not_eq_true, not_iff_not, ← Bool.eq_iff_iff] at same

end

end Heap

end LispMachine
