import LispMachine.Proofs.Machine.Growth
import LispMachine.Proofs.Reader.Grammar
import LispMachine.Reader
import Mathlib.Data.List.Forall2

/-!
# What values denote

A value denotes a datum when its cells are laid out as the datum is. The reader makes
such values in a store. Here stand the laws of the steps that it takes there: a step
keeps what has been made, and it fails only when the heap has run out.
-/

namespace LispMachine

/-! ## Values of the heap -/

namespace Heap

/-- The value is laid out as the datum, with such cells for the symbols. -/
inductive Holds (h : Heap) (symbol : String → Ref → Prop) : Ref → Datum → Prop where
  | null : Holds h symbol .null .null
  | integer {r : Ref} {value : Int64} : h.cell? r = some (.scalar (.integer value)) →
      Holds h symbol r (.integer value)
  | symbol {r : Ref} {name : String} : symbol name r → Holds h symbol r (.symbol name)
  | pair {r car cdr : Ref} {a b : Datum} : h.cell? r = some (.pair car cdr) →
      Holds h symbol car a → Holds h symbol cdr b → Holds h symbol r (.pair a b)

/-- The value has the structure of the datum, and symbols of the same names. -/
def Denotes (h : Heap) : Ref → Datum → Prop :=
  h.Holds fun name r => h.symbol? r = some name

section

variable {h h' : Heap} {symbol symbol' : String → Ref → Prop} {r : Ref} {d : Datum}

theorem Holds.mono (holds : h.Holds symbol r d) (kept : h.Keeps h')
    (more : ∀ name r, symbol name r → symbol' name r) : h'.Holds symbol' r d := by
  induction holds with
  | null => exact .null
  | integer found => exact .integer ((kept _ ⟨_, found, rfl⟩).trans found)
  | symbol named => exact .symbol (more _ _ named)
  | pair found _ _ car cdr => exact .pair ((kept _ ⟨_, found, rfl⟩).trans found) car cdr

/-- A heap without a limit may always grow. -/
theorem limited_of_mayGrow (full : h.mayGrow = false) : h.maxArenas ≠ none := by
  intro unlimited
  simp [mayGrow, unlimited] at full

/-- Lists are made as long as there is room. -/
theorem limited_of_listWithTail (wf : h.WellFormed) {items : List Ref} {tail : Ref} {e : HeapError}
    (failed : listWithTail items tail h = .error e h') : h.maxArenas ≠ none := by
  induction items generalizing e h' with
  | nil => cases failed
  | cons item items ih =>
      rw [listWithTail_cons] at failed
      cases begun : listWithTail items tail h with
      | error e h₁ => exact ih begun
      | ok rest h₁ =>
          rw [begun] at failed
          have extended := listWithTail_extends wf items tail
          rw [begun] at extended
          have used : (Cell.pair item rest).isFree = false := rfl
          rw [← extended.maxArenas wf]
          rcases alloc_cases (extended.wellFormed wf) used with ⟨r, h₂, done, _⟩ | ⟨_, _, full⟩
          · exact absurd (failed.symm.trans done) nofun
          · exact limited_of_mayGrow full

/-- A new list denotes the list of what its items denote. -/
theorem holds_listWithTail (wf : h.WellFormed) {items : List Ref} {ds : List Datum} {tail : Ref}
    (all : List.Forall₂ (h.Holds symbol) items ds) (last : h.Holds symbol tail d)
    (done : listWithTail items tail h = .ok r h') :
    h'.Holds symbol r (.listWithTail ds d) := by
  induction all generalizing r h' with
  | nil =>
      cases done
      exact last
  | @cons item e items ds first _ ih =>
      rw [listWithTail_cons] at done
      cases begun : listWithTail items tail h with
      | error e h₁ =>
          rw [begun] at done
          cases done
      | ok rest h₁ =>
          rw [begun] at done
          have extended := listWithTail_extends wf items tail
          rw [begun] at extended
          obtain ⟨wf₁, kept⟩ := extended.keeps wf
          have allocated := alloc_ok wf₁ rfl done
          exact .pair allocated.found (first.mono (kept.trans allocated.kept) fun _ _ => id)
            ((ih begun).mono allocated.kept fun _ _ => id)

end

end Heap

/-! ## Stores -/

namespace Store

/-- The heap is well formed, and the table leads from each name to a symbol of that name. -/
structure Consistent (s : Store) : Prop where
  heap : s.heap.WellFormed
  named : ∀ name r, s.lookup name = some r → s.heap.symbol? r = some name

/-- The second store comes from the first by adding cells and symbols. -/
structure Precedes (s s' : Store) : Prop where
  consistent : s'.Consistent
  kept : s.heap.Keeps s'.heap
  known : ∀ name r, s.lookup name = some r → s'.lookup name = some r
  limit : s'.heap.maxArenas = s.heap.maxArenas

/-- The value denotes the datum, and equal names are the identical cell. -/
def Denotes (s : Store) : Ref → Datum → Prop :=
  s.heap.Holds fun name r => s.lookup name = some r

section

variable {s s' s'' : Store} {r : Ref} {d : Datum}

theorem consistent_ofHeap {h : Heap} (wf : h.WellFormed) : (ofHeap h).Consistent :=
  ⟨wf, by rintro _ _ ⟨⟩⟩

theorem Consistent.refl (consistent : s.Consistent) : s.Precedes s :=
  ⟨consistent, .refl _, fun _ _ => id, rfl⟩

theorem Precedes.trans (first : s.Precedes s') (second : s'.Precedes s'') : s.Precedes s'' :=
  ⟨second.consistent, first.kept.trans second.kept,
    fun name r found => second.known name r (first.known name r found),
    second.limit.trans first.limit⟩

/-- A change of the heap that keeps its cells. -/
theorem Consistent.withHeap (consistent : s.Consistent) {h : Heap} (wf : h.WellFormed)
    (kept : s.heap.Keeps h) (limit : h.maxArenas = s.heap.maxArenas) : s.Precedes ⟨h, s.symbols⟩ :=
  ⟨⟨wf, fun name r found => kept.symbol? (consistent.named name r found)⟩, kept, fun _ _ => id,
    limit⟩

theorem Denotes.later (denotes : s.Denotes r d) (later : s.Precedes s') : s'.Denotes r d :=
  denotes.mono later.kept later.known

theorem Denotes.heap (denotes : s.Denotes r d) (consistent : s.Consistent) : s.heap.Denotes r d :=
  denotes.mono (.refl _) consistent.named

theorem forall₂_later {refs : List Ref} {ds : List Datum} (all : List.Forall₂ s.Denotes refs ds)
    (later : s.Precedes s') : List.Forall₂ s'.Denotes refs ds :=
  all.imp fun _ _ denotes => denotes.later later

end

end Store

/-! ## Steps of the reader -/

namespace Reader

/-- A step from the store leads to a later one, with a result that is expected or with a
    failure that is. It may also fail because the heap has run out, if there is a limit. -/
def Leads {α : Type} (s : Store) (good : α → Store → Prop) (bad : ReadError → Prop) :
    EStateM.Result ReadError Store α → Prop
  | .ok a s' => s.Precedes s' ∧ good a s'
  | .error e s' => s.Precedes s' ∧ ((∃ cause, e = .heap cause) ∧ s.heap.maxArenas ≠ none ∨ bad e)

section

variable {α β : Type} {s : Store} {good : α → Store → Prop} {bad : ReadError → Prop}

theorem Leads.bind {good' : β → Store → Prop} {x : EStateM ReadError Store α}
    {f : α → EStateM ReadError Store β} (first : Leads s good (fun _ => False) (x s))
    (second : ∀ a s', s.Precedes s' → good a s' → Leads s' good' bad (f a s')) :
    Leads s good' bad ((x >>= f) s) := by
  rw [bind_apply]
  cases done : x s with
  | ok a s' =>
      rw [done] at first
      have rest := second a s' first.1 first.2
      dsimp only
      cases ended : f a s' with
      | ok b s'' =>
          rw [ended] at rest
          exact ⟨first.1.trans rest.1, rest.2⟩
      | error e s'' =>
          rw [ended, Leads, first.1.limit] at rest
          exact ⟨first.1.trans rest.1, rest.2⟩
  | error e s' =>
      rw [done] at first
      exact ⟨first.1, Or.inl (first.2.resolve_right id)⟩

theorem leads_pure (consistent : s.Consistent) {a : α} (met : good a s) :
    Leads s good bad ((pure a : EStateM ReadError Store α) s) :=
  ⟨consistent.refl, met⟩

theorem leads_throw (consistent : s.Consistent) {e : ReadError} (met : bad e) :
    Leads s good bad ((throw e : EStateM ReadError Store α) s) :=
  ⟨consistent.refl, Or.inr met⟩

/-- The symbol of a name is the identical cell from then on. -/
theorem leads_intern (consistent : s.Consistent) (name : String) :
    Leads s (fun r s' => s'.Denotes r (.symbol name)) (fun _ => False) (intern name s) := by
  unfold intern
  rw [Store.intern_apply]
  cases known : s.lookup name with
  | some cell => exact ⟨consistent.refl, .symbol known⟩
  | none =>
      dsimp only
      have used : (Cell.scalar (.symbol name)).isFree = false := rfl
      rcases Heap.alloc_cases consistent.heap used with
        ⟨cell, heap, done, allocated⟩ | ⟨failed, _, full⟩
      · rw [done]
        have found : ∀ other r, Assoc.lookup other (Assoc.insert name cell s.symbols) = some r →
            (name = other ∧ r = cell) ∨ s.lookup other = some r := by
          intro other r found
          rw [Assoc.lookup_insert] at found
          split at found
          · next same => exact Or.inl ⟨same, (Option.some.inj found).symm⟩
          · exact Or.inr found
        refine ⟨⟨⟨allocated.wellFormed, fun other r at_ => ?_⟩, allocated.kept, ?_,
          allocated.maxArenas⟩, .symbol ?_⟩
        · rcases found other r at_ with ⟨rfl, rfl⟩ | old
          · exact Heap.symbol?_eq_some.2 allocated.found
          · exact allocated.kept.symbol? (consistent.named other r old)
        · intro other r old
          unfold Store.lookup
          rw [Assoc.lookup_insert, if_neg]
          · exact old
          · rintro rfl
            rw [known] at old
            cases old
        · unfold Store.lookup
          rw [Assoc.lookup_insert, if_pos rfl]
      · rw [failed]
        exact ⟨consistent.refl, Or.inl ⟨⟨_, rfl⟩, Heap.limited_of_mayGrow full⟩⟩

theorem leads_integer (consistent : s.Consistent) (value : Int64) :
    Leads s (fun r s' => s'.Denotes r (.integer value)) (fun _ => False)
      (onHeap (Heap.integer value) s) := by
  unfold onHeap
  rw [Store.onHeap_apply, Heap.integer, Heap.allocScalar]
  have used : (Cell.scalar (.integer value)).isFree = false := rfl
  rcases Heap.alloc_cases consistent.heap used with
    ⟨cell, heap, done, allocated⟩ | ⟨failed, _, full⟩
  · rw [done]
    exact ⟨consistent.withHeap allocated.wellFormed allocated.kept allocated.maxArenas,
      .integer allocated.found⟩
  · rw [failed]
    exact ⟨consistent.refl, Or.inl ⟨⟨_, rfl⟩, Heap.limited_of_mayGrow full⟩⟩

theorem leads_listWithTail (consistent : s.Consistent) {items : List Ref} {ds : List Datum}
    {tail : Ref} {d : Datum} (all : List.Forall₂ s.Denotes items ds) (last : s.Denotes tail d) :
    Leads s (fun r s' => s'.Denotes r (.listWithTail ds d)) (fun _ => False)
      (onHeap (Heap.listWithTail items tail) s) := by
  have extended := Heap.listWithTail_extends consistent.heap items tail
  obtain ⟨wf, kept⟩ := extended.keeps consistent.heap
  have limit := extended.maxArenas consistent.heap
  unfold onHeap
  rw [Store.onHeap_apply]
  cases done : Heap.listWithTail items tail s.heap with
  | ok r h =>
      rw [done] at wf kept limit
      exact ⟨consistent.withHeap wf kept limit,
        Heap.holds_listWithTail consistent.heap all last done⟩
  | error e h =>
      rw [done] at wf kept limit
      exact ⟨consistent.withHeap wf kept limit,
        Or.inl ⟨⟨_, rfl⟩, Heap.limited_of_listWithTail consistent.heap done⟩⟩

end

end Reader

end LispMachine
