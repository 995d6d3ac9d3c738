import LispMachine.Proofs.Heap.Founded
import LispMachine.Reader

/-!
# What reading builds

The reader keeps the items of open forms apart, and makes a list only when the form is
closed. So the pairs of a list refer to forms that have been read before.
-/

namespace LispMachine

/-! ## Stores -/

namespace Store

/-- The free list is sound, and symbols are cells in use. -/
structure Firm (s : Store) : Prop where
  wellFormed : s.heap.WellFormed
  named : ∀ r ∈ s.roots, s.heap.Held r

/-- The result leaves a firm store whose heap is built from the one before, and its
    references may be held. -/
structure Lifts {ε α : Type} (refs : α → List Ref) (s : Store) (result : EStateM.Result ε Store α) :
    Prop where
  builds : s.heap.Builds (after result).heap
  firm : (after result).Firm
  held : ∀ a s', result = .ok a s' → ∀ r ∈ refs a, s'.heap.Held r

section

variable {ε α β : Type} {s : Store} {refs : α → List Ref} {refs' : β → List Ref}

theorem lifts_pure {a : α} (firm : s.Firm) (held : ∀ r ∈ refs a, s.heap.Held r) :
    s.Lifts refs ((pure a : EStateM ε Store α) s) where
  builds := .refl _
  firm := firm
  held := by
    rintro _ _ ⟨⟩
    exact held

theorem lifts_throw (firm : s.Firm) (e : ε) : s.Lifts refs ((throw e : EStateM ε Store α) s) :=
  ⟨.refl _, firm, by rintro _ _ ⟨⟩⟩

/-- A success under another kind of failure. -/
theorem Lifts.reworded {ε' : Type} {a : α} {s' : Store}
    (lifts : s.Lifts refs (.ok a s' : EStateM.Result ε Store α)) :
    s.Lifts refs (.ok a s' : EStateM.Result ε' Store α) :=
  ⟨lifts.builds, lifts.firm, by rintro _ _ ⟨⟩; exact lifts.held a s' rfl⟩

theorem Lifts.failed {ε' : Type} {e : ε} {e' : ε'} {s' : Store}
    (lifts : s.Lifts refs (.error e s' : EStateM.Result ε Store α)) :
    s.Lifts refs' (.error e' s' : EStateM.Result ε' Store β) :=
  ⟨lifts.builds, lifts.firm, by rintro _ _ ⟨⟩⟩

theorem Lifts.bind {x : EStateM ε Store α} {f : α → EStateM ε Store β} (first : s.Lifts refs (x s))
    (second : ∀ (a : α) (s' : Store), s'.Firm → s.heap.Keeps s'.heap → (∀ r ∈ refs a, s'.heap.Held r) →
      s'.Lifts refs' (f a s')) : s.Lifts refs' ((x >>= f) s) := by
  rw [bind_apply]
  cases done : x s with
  | error e s' =>
      rw [done] at first
      exact first.failed
  | ok a s' =>
      rw [done] at first
      have rest := second a s' first.firm first.builds.keeps (first.held a s' rfl)
      exact ⟨first.builds.trans rest.builds, rest.firm, rest.held⟩

theorem lifts_onHeap {x : EStateM ε Heap α} (firm : s.Firm)
    (builds : s.heap.Builds (after (x s.heap)))
    (held : ∀ a h, x s.heap = .ok a h → ∀ r ∈ refs a, h.Held r) :
    s.Lifts refs (onHeap x s) := by
  have kept : ∀ h, s.heap.Builds h → Firm ⟨h, s.symbols⟩ := fun h builds =>
    ⟨builds.wellFormed firm.wellFormed, fun r member => builds.keeps.held (firm.named r member)⟩
  rw [onHeap_apply]
  cases done : x s.heap with
  | error e h =>
      rw [done] at builds
      exact ⟨builds, kept h builds, by rintro _ _ ⟨⟩⟩
  | ok a h =>
      rw [done] at builds
      refine ⟨builds, kept h builds, ?_⟩
      rintro _ _ ⟨⟩
      exact held a h done

theorem lifts_intern (firm : s.Firm) (name : String) :
    s.Lifts (fun cell => [cell]) (intern name s) := by
  rw [intern_apply]
  cases found : s.lookup name with
  | some cell =>
      refine lifts_pure firm fun r member => ?_
      rw [List.mem_singleton.1 member]
      exact firm.named cell (List.mem_map_of_mem (Assoc.mem_of_lookup found))
  | none =>
      dsimp only
      have used : (Cell.scalar (.symbol name)).isFree = false := rfl
      rcases Heap.alloc_cases firm.wellFormed used with
        ⟨cell, heap, done, allocated⟩ | ⟨failed, _⟩
      · rw [done]
        have fresh : heap.Held cell := .inr ⟨_, allocated.found, rfl⟩
        refine ⟨.alloc (.refl _) (by simp [Cell.children, Scalar.children]) allocated,
          ⟨allocated.wellFormed, fun r member => ?_⟩, ?_⟩
        · obtain ⟨p, inside, rfl⟩ := List.mem_map.1 member
          rcases Assoc.mem_insert inside with rfl | old
          · exact fresh
          · exact allocated.kept.held (firm.named _ (List.mem_map_of_mem old))
        · rintro _ _ ⟨⟩
          simpa using fresh
      · rw [failed]
        exact ⟨.refl _, firm, by rintro _ _ ⟨⟩⟩

end

end Store

/-! ## The reader -/

/-- The forms that an open form holds. -/
def Context.refs : Context → List Ref
  | .quote => []
  | .list items => items
  | .tail _ items => items
  | .close _ items last => last :: items

/-- The forms that reading has come to. -/
def Progress.refs : Progress → List Ref
  | .more contexts => contexts.flatMap Context.refs
  | .done form => [form]

namespace Reader

open Store

variable {s : Store}

theorem lifts_name (firm : s.Firm) (name : String) :
    s.Lifts (fun cell => [cell]) (Reader.intern name s) := by
  have step := lifts_intern firm name
  unfold Reader.intern
  cases done : Store.intern name s with
  | ok cell s' =>
      rw [done] at step
      exact step.reworded
  | error e s' =>
      rw [done] at step
      exact step.failed

/-- Heap operations on behalf of the reader. -/
theorem lifts_made {action : EStateM HeapError Heap Ref} (firm : s.Firm)
    (builds : s.heap.Builds (after (action s.heap)))
    (made : ∀ r h, action s.heap = .ok r h → h.Held r) :
    s.Lifts (fun cell => [cell]) (Reader.onHeap action s) := by
  have step : s.Lifts (fun cell => [cell]) (Store.onHeap action s) := by
    refine lifts_onHeap firm builds fun r h done other member => ?_
    rw [List.mem_singleton.1 member]
    exact made r h done
  unfold Reader.onHeap
  cases done : Store.onHeap action s with
  | ok cell s' =>
      rw [done] at step
      exact step.reworded
  | error e s' =>
      rw [done] at step
      exact step.failed

theorem lifts_list (firm : s.Firm) {items : List Ref} {last : Ref}
    (all : ∀ item ∈ items, s.heap.Held item) (end_ : s.heap.Held last) :
    s.Lifts (fun cell => [cell]) (Reader.onHeap (Heap.listWithTail items last) s) := by
  obtain ⟨builds, made⟩ := Heap.builds_listWithTail firm.wellFormed all end_
  exact lifts_made firm builds made

theorem lifts_integer (firm : s.Firm) (value : Int64) :
    s.Lifts (fun cell => [cell]) (Reader.onHeap (Heap.integer value) s) := by
  have builds : s.heap.Builds (after (Heap.integer value s.heap)) :=
    Heap.builds_alloc firm.wellFormed rfl (by simp [Cell.children, Scalar.children])
  exact lifts_made firm builds fun r h done =>
    .inr ⟨_, (Heap.alloc_ok firm.wellFormed rfl done).found, rfl⟩

section

variable {contexts : List Context} {form : Ref}

/-- A finished form and the open forms around it are built on. -/
theorem lifts_plug (firm : s.Firm) (open_ : ∀ r ∈ contexts.flatMap Context.refs, s.heap.Held r)
    (held : s.heap.Held form) : s.Lifts Progress.refs (plug contexts form s) := by
  induction contexts generalizing s form with
  | nil => exact lifts_pure firm (by simpa [Progress.refs] using held)
  | cons context outer ih =>
      cases context with
      | quote =>
          refine (lifts_name firm _).bind fun quote s₁ firm₁ kept₁ held₁ => ?_
          have both : ∀ item ∈ [quote, form], s₁.heap.Held item := by
            intro item member
            simp only [List.mem_cons, List.not_mem_nil, or_false] at member
            rcases member with rfl | rfl
            · exact held₁ item (by simp)
            · exact kept₁.held held
          refine (lifts_list firm₁ both (.inl rfl)).bind fun quoted s₂ firm₂ kept₂ held₂ => ?_
          refine ih firm₂ (fun r member => ?_) (held₂ quoted (by simp))
          exact kept₂.held (kept₁.held (open_ r (by simpa [Context.refs] using member)))
      | list items =>
          refine lifts_pure firm fun r member => ?_
          simp only [Progress.refs, List.flatMap_cons, Context.refs, List.cons_append,
            List.mem_cons] at member
          rcases member with rfl | inside
          · exact held
          · exact open_ r inside
      | tail dot items =>
          refine lifts_pure firm fun r member => ?_
          simp only [Progress.refs, List.flatMap_cons, Context.refs, List.cons_append,
            List.mem_cons] at member
          rcases member with rfl | inside
          · exact held
          · exact open_ r inside
      | close dot items last => exact lifts_throw firm _

theorem lifts_startForm (firm : s.Firm) (open_ : ∀ r ∈ contexts.flatMap Context.refs, s.heap.Held r)
    (token : Token) (start : Nat) : s.Lifts Progress.refs (startForm contexts token start s) := by
  cases token with
  | openParen => exact lifts_pure firm open_
  | closeParen => exact lifts_throw firm _
  | quote => exact lifts_pure firm open_
  | integer value =>
      refine (lifts_integer firm value).bind fun form s₁ firm₁ kept held => ?_
      exact lifts_plug firm₁ (fun r member => kept.held (open_ r member)) (held form (by simp))
  | symbol name =>
      unfold startForm
      dsimp only
      split
      · exact lifts_throw firm _
      · refine (lifts_name firm name).bind fun form s₁ firm₁ kept held => ?_
        exact lifts_plug firm₁ (fun r member => kept.held (open_ r member)) (held form (by simp))

theorem lifts_advance (firm : s.Firm) (open_ : ∀ r ∈ contexts.flatMap Context.refs, s.heap.Held r)
    (token : Token) (start : Nat) : s.Lifts Progress.refs (advance contexts token start s) := by
  have closed : ∀ {outer : List Context} {items : List Ref} {last : Ref},
      (∀ r ∈ outer.flatMap Context.refs, s.heap.Held r) → (∀ r ∈ items, s.heap.Held r) →
      s.heap.Held last → s.Lifts Progress.refs
        ((Reader.onHeap (Heap.listWithTail items.reverse last) >>= fun form => plug outer form) s) := by
    intro outer items last around all end_
    refine (lifts_list firm (fun r member => all r (List.mem_reverse.1 member)) end_).bind
      fun form s₁ firm₁ kept held => ?_
    exact lifts_plug firm₁ (fun r member => kept.held (around r member)) (held form (by simp))
  unfold advance
  split
  · next dot items last outer =>
      split
      · refine closed (fun r member => open_ r ?_) (fun r member => open_ r ?_) (open_ last ?_) <;>
          rw [List.flatMap_cons, List.mem_append]
        · exact .inr member
        · exact .inl (by simp only [Context.refs, List.mem_cons, member, or_true])
        · exact .inl (by simp only [Context.refs, List.mem_cons, true_or])
      · exact lifts_throw firm _
  · next items outer =>
      split
      · refine closed (fun r member => open_ r ?_) (fun r member => open_ r ?_) (.inl rfl) <;>
          rw [List.flatMap_cons, List.mem_append]
        · exact .inr member
        · exact .inl member
      · split
        · exact lifts_throw firm _
        · exact lifts_pure firm open_
      · exact lifts_startForm firm open_ _ _
  · exact lifts_startForm firm open_ _ _

/-- Reading builds on the heap, and the form that it comes to may be held. -/
theorem readFrom_builds (length : Nat) (ahead : List Lexeme) (firm : s.Firm)
    (open_ : ∀ r ∈ contexts.flatMap Context.refs, s.heap.Held r) :
    s.heap.Builds (after (readFrom length contexts ahead s)).2.heap := by
  induction ahead generalizing contexts s with
  | nil => cases contexts <;> exact .refl _
  | cons lexeme ahead ih =>
      rcases lexeme with ⟨span, e | token⟩
      · exact .refl _
      · have step := lifts_advance firm open_ token span.start
        unfold readFrom
        cases done : advance contexts token span.start s with
        | error e s' =>
            rw [done] at step
            exact step.builds
        | ok progress s' =>
            rw [done] at step
            cases progress with
            | done form => exact step.builds
            | more contexts => exact step.builds.trans (ih step.firm (step.held _ s' rfl))

end

end Reader

end LispMachine
