import LispMachine.Proofs.Twins.Heap

/-!
# Computations that go together

Two computations mirror each other when, from states that are the same up to ties,
they come to the same end up to ties: new ties may be added and none is given up. A
computation that runs into a limit of its own machine is not compared further; its
state is still one that goes together with another.
-/

namespace LispMachine

/-- Two results that go together: both are values, both are the same failure, or one of
    them is a limit, found in a state like one that the other computation has passed. -/
inductive Alike {ε σ α β : Type} (limit : ε → Prop) (done : α → σ → β → σ → Prop)
    (failed : σ → σ → Prop) : EStateM.Result ε σ α → EStateM.Result ε σ β → Prop where
  | ok {a : α} {s : σ} {b : β} {t : σ} : done a s b t → Alike limit done failed (.ok a s) (.ok b t)
  | error {e : ε} {s t : σ} : failed s t → Alike limit done failed (.error e s) (.error e t)
  | limit₁ {e : ε} {s t : σ} {other : EStateM.Result ε σ β} : limit e → failed s t →
      Alike limit done failed (.error e s) other
  | limit₂ {e : ε} {s t : σ} {other : EStateM.Result ε σ α} : limit e → failed s t →
      Alike limit done failed other (.error e t)

theorem Alike.imp {ε σ α β : Type} {limit : ε → Prop} {done done' : α → σ → β → σ → Prop}
    {failed failed' : σ → σ → Prop} {r : EStateM.Result ε σ α} {r' : EStateM.Result ε σ β}
    (alike : Alike limit done failed r r') (onDone : ∀ a s b t, done a s b t → done' a s b t)
    (onFailed : ∀ s t, failed s t → failed' s t) : Alike limit done' failed' r r' := by
  cases alike with
  | ok ended => exact .ok (onDone _ _ _ _ ended)
  | error ended => exact .error (onFailed _ _ ended)
  | limit₁ reached ended => exact .limit₁ reached (onFailed _ _ ended)
  | limit₂ reached ended => exact .limit₂ reached (onFailed _ _ ended)

/-- From states that go together under these ties or more, the computations come to
    results that go together. -/
def Mirrors {ε σ α β : Type} (state : Ties → σ → σ → Prop) (limit : ε → Prop) (ties : Ties)
    (result : Ties → α → β → Prop) (x : EStateM ε σ α) (y : EStateM ε σ β) : Prop :=
  ∀ ties', ties ⊆ ties' → ∀ s t, state ties' s t →
    Alike limit
      (fun a s b t => ∃ ties'', ties' ⊆ ties'' ∧ state ties'' s t ∧ result ties'' a b)
      (fun s t => ∃ ties'', ties' ⊆ ties'' ∧ state ties'' s t) (x s) (y t)

section

variable {ε σ α β α' β' : Type} {state : Ties → σ → σ → Prop} {limit : ε → Prop} {ties : Ties}

theorem Mirrors.mono {result : Ties → α → β → Prop} {x : EStateM ε σ α} {y : EStateM ε σ β}
    (mirrors : Mirrors state limit ties result x y) {ties' : Ties} (sub : ties ⊆ ties') :
    Mirrors state limit ties' result x y :=
  fun ties'' sub' => mirrors ties'' (List.Subset.trans sub sub')

theorem Mirrors.bind {result : Ties → α → β → Prop} {result' : Ties → α' → β' → Prop}
    {x : EStateM ε σ α} {y : EStateM ε σ β} {f : α → EStateM ε σ α'} {g : β → EStateM ε σ β'}
    (first : Mirrors state limit ties result x y)
    (second : ∀ ties', ties ⊆ ties' → ∀ a b, result ties' a b →
      Mirrors state limit ties' result' (f a) (g b)) :
    Mirrors state limit ties result' (x >>= f) (y >>= g) := by
  intro ties' sub s t together
  have both := first ties' sub s t together
  rw [bind_apply, bind_apply]
  generalize x s = r, y t = r' at both
  cases both with
  | error failed => exact .error failed
  | limit₁ reached failed => exact .limit₁ reached failed
  | limit₂ reached failed => exact .limit₂ reached failed
  | ok done =>
      obtain ⟨ties₁, sub₁, together₁, related⟩ := done
      have rest := second ties₁ (List.Subset.trans sub sub₁) _ _ related ties₁
        (List.Subset.refl _) _ _ together₁
      refine rest.imp ?_ ?_
      · rintro _ _ _ _ ⟨ties₂, sub₂, ended⟩
        exact ⟨ties₂, List.Subset.trans sub₁ sub₂, ended⟩
      · rintro _ _ ⟨ties₂, sub₂, ended⟩
        exact ⟨ties₂, List.Subset.trans sub₁ sub₂, ended⟩

theorem Mirrors.pure {result : Ties → α → β → Prop} {a : α} {b : β}
    (related : ∀ ties', ties ⊆ ties' → result ties' a b) :
    Mirrors state limit ties result (pure a : EStateM ε σ α) (pure b : EStateM ε σ β) :=
  fun ties' sub _ _ together => .ok ⟨ties', List.Subset.refl _, together, related ties' sub⟩

theorem Mirrors.unit : Mirrors state limit ties (fun _ _ _ => True)
    (Pure.pure () : EStateM ε σ Unit) (Pure.pure () : EStateM ε σ Unit) :=
  .pure fun _ _ => trivial

theorem Mirrors.throw {result : Ties → α → β → Prop} {e e' : ε} (same : e = e') :
    Mirrors state limit ties result (throw e : EStateM ε σ α) (throw e' : EStateM ε σ β) := by
  subst same
  exact fun ties' _ _ _ together => .error ⟨ties', List.Subset.refl _, together⟩

/-- What is known of the states may be used. -/
theorem Mirrors.look {result : Ties → α → β → Prop} {x : EStateM ε σ α} {y : EStateM ε σ β}
    (next : ∀ ties', ties ⊆ ties' → ∀ s t, state ties' s t →
      Mirrors state limit ties' result x y) :
    Mirrors state limit ties result x y :=
  fun ties' sub s t together =>
    next ties' sub s t together ties' (List.Subset.refl _) s t together

/-- Computations that look at the state first. -/
theorem Mirrors.get {result : Ties → α → β → Prop} {f : σ → EStateM ε σ α} {g : σ → EStateM ε σ β}
    (next : ∀ ties', ties ⊆ ties' → ∀ s t, state ties' s t →
      Mirrors state limit ties' result (f s) (g t)) :
    Mirrors state limit ties result (get >>= f) (get >>= g) :=
  fun ties' sub s t together =>
    next ties' sub s t together ties' (List.Subset.refl _) s t together

theorem Mirrors.modify {f g : σ → σ}
    (next : ∀ ties', ties ⊆ ties' → ∀ s t, state ties' s t → state ties' (f s) (g t)) :
    Mirrors state limit ties (fun _ _ _ => True) (modify f : EStateM ε σ PUnit)
      (modify g : EStateM ε σ PUnit) :=
  fun ties' sub s t together =>
    .ok ⟨ties', List.Subset.refl _, next ties' sub s t together, trivial⟩

end

/-! ## Allocation -/

namespace Heap

variable {ties : Ties}

/-- Every failure of the heap is a limit. -/
theorem mirrors_alloc {c d : Cell} (same : c.Resembles (Tied ties) d) :
    Mirrors Twins (fun _ => True) ties Tied (alloc c) (alloc d) := by
  intro ties' sub h k twins
  obtain ⟨used, used'⟩ := same.used
  rcases alloc_cases twins.tidy₁.wellFormed used with ⟨a, h', done, first⟩ | ⟨failed, _⟩
  · rcases alloc_cases twins.tidy₂.wellFormed used' with ⟨b, k', done', second⟩ | ⟨failed, _⟩
    · rw [done, done']
      refine .ok ⟨(a, b) :: ties', List.subset_cons_self _ _, ⟨?_, ?_, ?_⟩, Or.inr List.mem_cons_self⟩
      · refine twins.tidy₁.allocated first same.plain.1 fun child member => ?_
        obtain ⟨_, tied⟩ := same.child member
        exact (twins.paired.held (tied.mono sub)).1
      · refine twins.tidy₂.allocated second same.plain.2 fun child member => ?_
        obtain ⟨_, tied⟩ := same.flip.child member
        exact (twins.paired.held (Tied.mono tied sub)).2
      · refine .cons (twins.paired.keeps first.kept second.kept) ?_ ?_ first.found second.found
          (same.mono sub)
        · rintro ⟨x, y⟩ member rfl
          exact first.fresh (twins.paired.live member).1
        · rintro ⟨x, y⟩ member rfl
          exact second.fresh (twins.paired.live member).2
    · rw [failed]
      exact .limit₂ trivial ⟨ties', List.Subset.refl _, twins⟩
  · rw [failed]
    exact .limit₁ trivial ⟨ties', List.Subset.refl _, twins⟩

theorem mirrors_listWithTail {items items' : List Ref} {tail tail' : Ref}
    (all : List.Forall₂ (Tied ties) items items') (last : Tied ties tail tail') :
    Mirrors Twins (fun _ => True) ties Tied (listWithTail items tail)
      (listWithTail items' tail') := by
  induction all with
  | nil => exact .pure fun _ sub => last.mono sub
  | cons head _ ih =>
      simp only [listWithTail, List.foldrM_cons] at ih ⊢
      exact ih.bind fun ties' sub rest rest' tied => mirrors_alloc (.pair (head.mono sub) tied)

theorem mirrors_list {items items' : List Ref} (all : List.Forall₂ (Tied ties) items items') :
    Mirrors Twins (fun _ => True) ties Tied (list items) (list items') :=
  mirrors_listWithTail all (.null ties)

theorem mirrors_integer (value : Int64) :
    Mirrors Twins (fun _ => True) ties Tied (integer value) (integer value) :=
  mirrors_alloc (.scalar (.integer value))

end Heap

end LispMachine
