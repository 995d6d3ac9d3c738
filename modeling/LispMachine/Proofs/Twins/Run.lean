import LispMachine.Proofs.Machine.Frames
import LispMachine.Proofs.Twins.Machine

/-!
# Calls and runs go together

On machines that are the same up to ties, an instruction, a call and a run do the
same up to ties, as long as neither machine runs out of cells, frames or fuel.
-/

namespace LispMachine

/-- A failure that tells of the size of the heap, or of the limit of the stack of frames
    where that limit is not the same on both sides. -/
def RuntimeError.isLimit (sized : Bool) : RuntimeError → Bool
  | .heap _ => true
  | .stackOverflow _ => !sized
  | _ => false

/-- The end of a computation at a limit: it has no fuel left, or a failure tells of a
    limit. -/
def Stop.AtLimit {ε : Type} (isLimit : ε → Bool) : Stop ε → Prop
  | .failed error => isLimit error = true
  | .outOfFuel => True

/-! ## Stores -/

namespace Store

variable {α β : Type} {sized : Bool} {ties : Ties} {kept kept' : Ref}

theorem Twins.mono {s t : Store} {h k : Heap} {ties' : Ties} (twins : s.Twins kept kept' ties t)
    (sub : ties ⊆ ties') (heaps : h.Twins ties' k) :
    Store.Twins kept kept' ties' ⟨h, s.symbols⟩ ⟨k, t.symbols⟩ :=
  ⟨heaps, twins.symbols.imp fun _ _ both => ⟨both.1, both.2.mono sub⟩, twins.kept₁, twins.kept₂⟩

theorem mirrors_onHeap {result : Ties → α → β → Prop} {x : EStateM HeapError Heap α}
    {y : EStateM HeapError Heap β} (mirrors : Mirrors Heap.Twins (fun _ => True) ties result x y) :
    Mirrors (Twins kept kept') (fun _ => True) ties result (onHeap x) (onHeap y) := by
  intro ties' sub s t twins
  have both := mirrors ties' sub s.heap t.heap twins.heap
  have carried : ∀ h k, (∃ ties'', ties' ⊆ ties'' ∧ Heap.Twins ties'' h k) → ∃ ties'', ties' ⊆ ties'' ∧
      Store.Twins kept kept' ties'' ⟨h, s.symbols⟩ ⟨k, t.symbols⟩ :=
    fun _ _ ⟨ties'', sub', heaps⟩ => ⟨ties'', sub', twins.mono sub' heaps⟩
  rw [onHeap_apply, onHeap_apply]
  generalize x s.heap = first, y t.heap = second at both
  cases both with
  | ok done =>
      obtain ⟨ties'', sub', heaps, related⟩ := done
      exact .ok ⟨ties'', sub', twins.mono sub' heaps, related⟩
  | error failed => exact .limit₁ trivial (carried _ _ failed)
  | limit₁ _ failed => exact .limit₁ trivial (carried _ _ failed)
  | limit₂ _ failed => exact .limit₂ trivial (carried _ _ failed)

theorem mirrors_intern (name : String) :
    Mirrors (Twins kept kept') (fun _ => True) ties Tied (intern name) (intern name) := by
  intro ties' sub s t twins
  have found := @Assoc.lookup_rel _ _ _ _ _ _ Eq _ _ _ (by rintro a b a' b' rfl rfl; rfl)
    twins.symbols name name rfl
  rw [intern_apply, intern_apply]
  unfold Store.lookup
  cases first : Assoc.lookup name s.symbols with
  | some cell =>
      rw [first] at found
      cases second : Assoc.lookup name t.symbols with
      | none =>
          rw [second] at found
          cases found
      | some cell' =>
          rw [second] at found
          cases found with
          | some tied => exact .ok ⟨ties', List.Subset.refl _, twins, tied⟩
  | none =>
      rw [first] at found
      cases second : Assoc.lookup name t.symbols with
      | some cell' =>
          rw [second] at found
          cases found
      | none =>
          have both := Heap.mirrors_alloc (.scalar (.symbol name)) ties' (List.Subset.refl _) s.heap
            t.heap twins.heap
          have carried : ∀ h k, (∃ ties'', ties' ⊆ ties'' ∧ Heap.Twins ties'' h k) →
              ∃ ties'', ties' ⊆ ties'' ∧
                Store.Twins kept kept' ties'' ⟨h, s.symbols⟩ ⟨k, t.symbols⟩ :=
            fun _ _ ⟨ties'', sub', heaps⟩ => ⟨ties'', sub', twins.mono sub' heaps⟩
          dsimp only
          generalize Heap.alloc (.scalar (.symbol name)) s.heap = r,
            Heap.alloc (.scalar (.symbol name)) t.heap = r' at both
          cases both with
          | error failed => exact .limit₁ trivial (carried _ _ failed)
          | limit₁ _ failed => exact .limit₁ trivial (carried _ _ failed)
          | limit₂ _ failed => exact .limit₂ trivial (carried _ _ failed)
          | ok done =>
              obtain ⟨ties'', sub', heaps, tied⟩ := done
              refine .ok ⟨ties'', sub', ⟨heaps, ?_, ?_, ?_⟩, tied⟩
              · refine Assoc.insert_rel (by rintro a b a' b' rfl rfl; rfl) ?_ rfl tied
                exact twins.symbols.imp fun _ _ both => ⟨both.1, both.2.mono sub'⟩
              · exact twins.kept₁.imp id fun member => mem_roots_insert first _ (Or.inl member)
              · exact twins.kept₂.imp id fun member => mem_roots_insert second _ (Or.inl member)

end Store

namespace Machine

section

variable {ε α β : Type} {sized : Bool} {ties : Ties} {limit : ε → Prop}

theorem Twins.withStore {m n : Machine} {s t : Store} {ties' : Ties} (twins : m.Twins sized ties n)
    (sub : ties ⊆ ties') (stores : s.Twins m.truth n.truth ties' t) :
    { m with store := s }.Twins sized ties' { n with store := t } where
  store := stores
  registry := twins.registry.mono sub
  top := twins.top.mono sub
  callers := twins.callers.imp fun _ _ same => same.mono sub
  user := twins.user
  truth := twins.truth.mono sub
  output := twins.output
  maxFrames := twins.maxFrames

theorem mirrors_onStore {f : HeapError → ε} (limits : ∀ e, limit (f e))
    {result : Ties → α → β → Prop} {x : EStateM HeapError Store α} {y : EStateM HeapError Store β}
    (mirrors : ∀ kept kept', Mirrors (Store.Twins kept kept') (fun _ => True) ties result x y) :
    Mirrors (Twins sized) limit ties result (onStore f x) (onStore f y) := by
  intro ties' sub m n twins
  have both := mirrors m.truth n.truth ties' sub m.store n.store twins.store
  unfold onStore
  dsimp only
  generalize x m.store = first, y n.store = second at both
  cases both with
  | ok done =>
      obtain ⟨ties'', sub', stores, related⟩ := done
      exact .ok ⟨ties'', sub', twins.withStore sub' stores, related⟩
  | error failed =>
      obtain ⟨ties'', sub', stores⟩ := failed
      exact .limit₁ (limits _) ⟨ties'', sub', twins.withStore sub' stores⟩
  | limit₁ _ failed =>
      obtain ⟨ties'', sub', stores⟩ := failed
      exact .limit₁ (limits _) ⟨ties'', sub', twins.withStore sub' stores⟩
  | limit₂ _ failed =>
      obtain ⟨ties'', sub', stores⟩ := failed
      exact .limit₂ (limits _) ⟨ties'', sub', twins.withStore sub' stores⟩

theorem mirrors_onHeap {f : HeapError → ε} (limits : ∀ e, limit (f e))
    {result : Ties → α → β → Prop} {x : EStateM HeapError Heap α} {y : EStateM HeapError Heap β}
    (mirrors : Mirrors Heap.Twins (fun _ => True) ties result x y) :
    Mirrors (Twins sized) limit ties result (onHeap f x) (onHeap f y) :=
  mirrors_onStore limits fun _ _ => Store.mirrors_onHeap mirrors

theorem mirrors_intern {f : HeapError → ε} (limits : ∀ e, limit (f e)) (name : String) :
    Mirrors (Twins sized) limit ties Tied (intern f name) (intern f name) :=
  mirrors_onStore limits fun _ _ => Store.mirrors_intern name

end

/-! ## Frames -/

section

variable {sized : Bool} {ties : Ties} {m n : Machine}

theorem Twins.withTop (twins : m.Twins sized ties n) {f g : Frame} (same : f.Resembles (Tied ties) g) :
    (m.withTop f).Twins sized ties (n.withTop g) :=
  ⟨twins.store, twins.registry, same, twins.callers, twins.user, twins.truth, twins.output,
    twins.maxFrames⟩

theorem Twins.withJournal (twins : m.Twins sized ties n) (first second : Journal) :
    (m.withJournal first).Twins sized ties (n.withJournal second) :=
  ⟨twins.store, twins.registry, twins.top, twins.callers, twins.user, twins.truth, twins.output,
    twins.maxFrames⟩

theorem Twins.withFrame (twins : m.Twins sized ties n) {f g : Frame} (same : f.Resembles (Tied ties) g) :
    (m.withFrame f).Twins sized ties (n.withFrame g) where
  store := twins.store
  registry := twins.registry
  top := same
  callers := by
    simp only [Machine.withFrame, Array.toList_push]
    exact forall₂_append twins.callers (.cons twins.top .nil)
  user := twins.user
  truth := twins.truth
  output := twins.output
  maxFrames := twins.maxFrames

theorem Twins.push (twins : m.Twins sized ties n) {a b : Ref} (tied : Tied ties a b) :
    (m.push a).Twins sized ties (n.push b) :=
  twins.withTop (twins.top.push tied)

theorem Twins.truncate (twins : m.Twins sized ties n) (count : Nat) :
    (m.truncate count).Twins sized ties (n.truncate count) := by
  have frames := forall₂_getElem? twins.callers (count - 1)
  rw [Array.getElem?_toList, Array.getElem?_toList] at frames
  unfold Machine.truncate
  generalize m.callers[count - 1]? = first, n.callers[count - 1]? = second at frames
  cases frames with
  | none => exact twins
  | some same =>
      refine ⟨twins.store, twins.registry, same, ?_, twins.user, twins.truth, twins.output,
    twins.maxFrames⟩
      simp only [Array.toList_shrink]
      exact List.forall₂_take _ twins.callers

theorem Twins.frameAt? (twins : m.Twins sized ties n) (height : Nat) :
    Option.Rel (Frame.Resembles (Tied ties)) (m.frameAt? height) (n.frameAt? height) := by
  have sizes : m.callers.size = n.callers.size := Nat.succ.inj twins.depth
  unfold Machine.frameAt?
  rw [sizes]
  split
  · exact .some twins.top
  · have frames := forall₂_getElem? twins.callers height
    rw [Array.getElem?_toList, Array.getElem?_toList] at frames
    exact frames

end

/-- Both are the same computation up to ties, as long as no limit is reached. -/
abbrev Mirrored {α β : Type} (sized : Bool) (ties : Ties) (result : Ties → α → β → Prop) (x : Action RuntimeError α)
    (y : Action RuntimeError β) : Prop :=
  Mirrors (Twins sized) (Stop.AtLimit (RuntimeError.isLimit sized)) ties result x y

section

variable {sized : Bool} {ties : Ties}

theorem mirrored_pop : Mirrored sized ties Tied pop pop := by
  intro ties' sub m n twins
  have piles := twins.top.stack
  unfold pop
  generalize m.top.stack = first, n.top.stack = second at piles
  cases piles with
  | nil => exact .error ⟨ties', List.Subset.refl _, twins⟩
  | cons head rest =>
      refine .ok ⟨ties', List.Subset.refl _, twins.withTop ?_, head⟩
      exact ⟨rest, twins.top.locals, twins.top.activity, twins.top.home⟩

theorem mirrored_enter {f g : Frame} (same : f.Resembles (Tied ties) g) :
    Mirrored sized ties (fun _ _ _ => True) (enter f) (enter g) := by
  intro ties' sub m n twins
  rw [enter_apply, enter_apply]
  cases sized with
  | true =>
      -- Both frame limits are the same, so they are reached together.
      rw [twins.maxFrames rfl, twins.depth]
      split
      · exact .error ⟨ties', List.Subset.refl _, twins⟩
      · exact .ok ⟨ties', List.Subset.refl _, twins.withFrame (same.mono sub), trivial⟩
  | false =>
      split
      · exact .limit₁ rfl ⟨ties', List.Subset.refl _, twins⟩
      · split
        · exact .limit₂ rfl ⟨ties', List.Subset.refl _, twins⟩
        · exact .ok ⟨ties', List.Subset.refl _, twins.withFrame (same.mono sub), trivial⟩

theorem mirrored_push {a b : Ref} (tied : Tied ties a b) :
    Mirrored sized ties (fun _ _ _ => True) (modify fun m => m.push a) (modify fun m => m.push b) :=
  .modify fun _ sub _ _ twins => twins.push (tied.mono sub)

theorem mirrored_fail {α β : Type} {result : Ties → α → β → Prop} {e e' : RuntimeError}
    (same : e = e') : Mirrored sized ties result (fail e) (fail e') :=
  .throw (congrArg _ same)

theorem mirrored_checkArity {name name' : Machine → String}
    (names : ∀ ties', ties ⊆ ties' → ∀ m n, Twins sized ties' m n → name m = name' n) (arity : Arity)
    (count : Nat) :
    Mirrored sized ties (fun _ _ _ => True) (checkArity name arity count) (checkArity name' arity count) := by
  intro ties' sub m n twins
  unfold checkArity
  split
  · exact .ok ⟨ties', List.Subset.refl _, twins, trivial⟩
  · rw [names ties' sub m n twins]
    exact .error ⟨ties', List.Subset.refl _, twins⟩

theorem mirrored_giveBack : Mirrored sized ties (fun _ _ _ => True) giveBack giveBack := by
  intro ties' sub m n twins
  have sizes : m.callers.size = n.callers.size := Nat.succ.inj twins.depth
  by_cases none : m.callers.size = 0
  · have first := Array.eq_empty_of_size_eq_zero none
    have second := Array.eq_empty_of_size_eq_zero (sizes.symm.trans none)
    simp only [giveBack, first, second]
    exact .error ⟨ties', List.Subset.refl _, twins⟩
  · obtain ⟨below, caller, split⟩ := Array.eq_push_of_size_ne_zero none
    obtain ⟨below', caller', split'⟩ := Array.eq_push_of_size_ne_zero (by rwa [← sizes])
    have frames := twins.callers
    rw [split, split', Array.toList_push, Array.toList_push] at frames
    obtain ⟨lower, same⟩ := forall₂_concat frames
    rw [giveBack_push split, giveBack_push split']
    have piles := twins.top.stack
    generalize m.top.stack = first, n.top.stack = second at piles
    cases piles with
    | cons head rest =>
        refine .ok ⟨ties', List.Subset.refl _, ?_, trivial⟩
        exact ⟨twins.store, twins.registry, same.push head, lower, twins.user, twins.truth,
          twins.output, twins.maxFrames⟩
    | nil =>
        have left : ({ m with top := caller, callers := below } : Machine).Twins sized ties'
            { n with top := caller', callers := below' } :=
          ⟨twins.store, twins.registry, same, lower, twins.user, twins.truth, twins.output,
    twins.maxFrames⟩
        have doing := twins.top.activity
        generalize m.top.activity = first, n.top.activity = second at doing
        cases doing with
        | running pc code =>
            dsimp only
            rw [twins.codeName code]
            exact .error ⟨ties', List.Subset.refl _, left⟩
        | native name => exact .error ⟨ties', List.Subset.refl _, left⟩
        | waiting => exact .error ⟨ties', List.Subset.refl _, left⟩

end

end Machine

/-! ## Library callables -/

theorem limit_ofHeap (e : HeapError) :
    Stop.AtLimit (RuntimeError.isLimit sized) (RuntimeError.ofHeap e) := rfl

theorem tied_argument {ties : Ties} {args args' : List Ref}
    (all : List.Forall₂ (Tied ties) args args') (i : Nat) :
    Tied ties (argument args i) (argument args' i) := by
  have items := forall₂_getElem? all i
  unfold argument
  rw [List.getD_eq_getElem?_getD, List.getD_eq_getElem?_getD]
  generalize args[i]? = first, args'[i]? = second at items
  cases items with
  | none => exact .null ties
  | some tied => exact tied

namespace Builtin

open Machine

variable {sized : Bool} {ties : Ties} {args args' : List Ref}

theorem integers_twins {m n : Machine} (twins : m.Twins sized ties n) (function : String)
    (all : List.Forall₂ (Tied ties) args args') :
    integers m function args = integers n function args' := by
  induction all with
  | nil => rfl
  | cons head _ ih =>
      simp only [integers, twins.heap.integer? head, twins.typeError function "integer" head, ih]

theorem mirrored_arithmetic (builtin : Builtin) (compute : List Int64 → Option Int64)
    (all : List.Forall₂ (Tied ties) args args') :
    Mirrored sized ties Tied (arithmetic builtin compute args) (arithmetic builtin compute args') := by
  refine Mirrors.get fun ties' sub m n twins => ?_
  rw [integers_twins twins builtin.name (forall₂_tied_mono all sub)]
  split
  · exact mirrored_fail rfl
  · split
    · exact mirrored_fail rfl
    · exact mirrors_onHeap limit_ofHeap (Heap.mirrors_integer _)

theorem mirrored_comparison (builtin : Builtin) (holds : Int64 → Int64 → Bool)
    (all : List.Forall₂ (Tied ties) args args') :
    Mirrored sized ties Tied (comparison builtin holds args) (comparison builtin holds args') := by
  refine Mirrors.get fun ties' sub m n twins => ?_
  rw [integers_twins twins builtin.name (forall₂_tied_mono all sub)]
  split
  · exact mirrored_fail rfl
  · exact .pure fun _ more => (twins.boolean _).mono more

theorem isSame_twins {h k : Heap} (twins : h.Twins ties k) {a b a' b' : Ref} (first : Tied ties a b)
    (second : Tied ties a' b') : isSame h a a' = isSame k b b' := by
  have same : decide (a = a') = decide (b = b') := decide_eq_decide.2 (twins.eq_iff first second)
  unfold isSame
  rw [twins.integer? first, twins.integer? second, same]

theorem mirrored_half (builtin : Builtin) {part : Ref × Ref → Ref}
    (parts : ∀ (ties : Ties) (p q : Ref × Ref), Tied ties p.1 q.1 ∧ Tied ties p.2 q.2 →
      Tied ties (part p) (part q)) {a b : Ref} (tied : Tied ties a b) :
    Mirrored sized ties Tied (half builtin part a) (half builtin part b) := by
  refine Mirrors.get fun ties' sub m n twins => ?_
  have tied' := tied.mono sub
  have pairs := twins.heap.pair? tied'
  rw [twins.heap.isNull tied', twins.typeError builtin.name "list" tied']
  generalize m.heap.pair? a = first, n.heap.pair? b = second at pairs
  cases pairs with
  | some both => exact .pure fun _ more => (parts _ _ _ both).mono more
  | none =>
      dsimp only
      split
      · exact .pure fun _ more => tied'.mono more
      · exact mirrored_fail rfl

theorem Twins.printLine {m n : Machine} (twins : m.Twins sized ties n) (line : String) :
    (m.printLine line).Twins sized ties (n.printLine line) where
  store := twins.store
  registry := twins.registry
  top := twins.top
  callers := twins.callers
  user := twins.user
  truth := twins.truth
  output := by rw [Machine.printLine, Machine.printLine, twins.output]
  maxFrames := twins.maxFrames

theorem mirrored_run (builtin : Builtin) (all : List.Forall₂ (Tied ties) args args') :
    Mirrored sized ties Tied (builtin.run args) (builtin.run args') := by
  have first := tied_argument all 0
  have second := tied_argument all 1
  cases builtin with
  | add => exact mirrored_arithmetic add sum all
  | subtract => exact mirrored_arithmetic subtract difference all
  | multiply => exact mirrored_arithmetic multiply product all
  | less =>
      simp only [run]
      exact mirrored_comparison less _ all
  | equal => exact mirrored_comparison equal _ all
  | same =>
      refine Mirrors.get fun ties' sub m n twins => ?_
      rw [isSame_twins twins.heap (first.mono sub) (second.mono sub)]
      exact .pure fun _ more => (twins.boolean _).mono more
  | car => exact mirrored_half car (fun _ _ _ both => both.1) first
  | cdr => exact mirrored_half cdr (fun _ _ _ both => both.2) first
  | cons => exact mirrors_onHeap limit_ofHeap (Heap.mirrors_alloc (.pair first second))
  | list => exact mirrors_onHeap limit_ofHeap (Heap.mirrors_list all)
  | isNull =>
      refine Mirrors.get fun ties' sub m n twins => ?_
      rw [twins.heap.isNull (first.mono sub)]
      exact .pure fun _ more => (twins.boolean _).mono more
  | print =>
      refine Mirrors.bind (Mirrors.modify fun ties' sub m n twins => ?_)
        fun ties' sub _ _ _ => .pure fun _ more => (first.mono sub).mono more
      rw [twins.display (first.mono sub)]
      exact Twins.printLine twins _

end Builtin

/-! ## Calls -/

namespace Machine

section

variable {sized : Bool} {ties : Ties} {args args' : List Ref} {c d : Code}

theorem arity_twins (same : c.Resembles (Tied ties) d) : c.arity = d.arity := by
  rw [Code.arity, Code.arity, same.params, same.takesRest]

theorem mirrored_gatherRest (same : c.Resembles (Tied ties) d)
    (all : List.Forall₂ (Tied ties) args args') :
    Mirrored sized ties (fun ties => List.Forall₂ (Tied ties)) (gatherRest c args) (gatherRest d args') := by
  unfold gatherRest
  rw [same.takesRest, same.params]
  split
  · have listed := Heap.mirrors_list (List.forall₂_drop d.params all)
    refine (mirrors_onHeap limit_ofHeap listed).bind fun ties' sub rest rest' tied => ?_
    refine .pure fun ties'' more => forall₂_append ?_ (.cons (tied.mono more) .nil)
    exact forall₂_tied_mono (List.forall₂_take d.params all) (List.Subset.trans sub more)
  · exact .pure fun ties' sub => forall₂_tied_mono all sub

theorem frame_ofCode (same : c.Resembles (Tied ties) d) (all : List.Forall₂ (Tied ties) args args')
    (home : ModuleId) :
    (Frame.ofCode c home (variablesOf c args)).Resembles (Tied ties)
      (Frame.ofCode d home (variablesOf d args')) where
  stack := .nil
  locals := by
    simp only [Frame.ofCode, variablesOf, Array.toList_append, Array.toList_replicate, same.slots,
      all.length_eq]
    refine forall₂_append all ?_
    generalize d.slots - args'.length = count
    induction count with
    | zero => exact .nil
    | succ count ih => exact .cons (.null ties) ih
  activity := .running 0 same
  home := rfl

theorem mirrored_callCode (same : c.Resembles (Tied ties) d)
    (all : List.Forall₂ (Tied ties) args args') :
    Mirrored sized ties (fun _ _ _ => True) (callCode c args) (callCode d args') := by
  unfold callCode
  rw [arity_twins same, all.length_eq]
  refine Mirrors.bind (mirrored_checkArity ?_ _ _) fun ties₁ sub₁ _ _ _ => ?_
  · exact fun ties' sub m n twins => twins.codeName (same.mono sub)
  · have same₁ := same.mono sub₁
    refine Mirrors.bind (mirrored_gatherRest same₁ (forall₂_tied_mono all sub₁)) ?_
    intro ties₂ sub₂ values values' all₂
    refine Mirrors.get fun ties₃ sub₃ m n twins => ?_
    have same₃ := (same₁.mono sub₂).mono sub₃
    rw [twins.homeOf same₃]
    exact mirrored_enter (frame_ofCode same₃ (forall₂_tied_mono all₂ sub₃) _)

theorem mirrored_callNative (host host' : Host) (builtin : Builtin)
    (all : List.Forall₂ (Tied ties) args args') :
    Mirrored sized ties (fun _ _ _ => True) (callNative host (.builtin builtin) args)
      (callNative host' (.builtin builtin) args') := by
  unfold callNative
  rw [all.length_eq]
  refine Mirrors.bind (mirrored_checkArity (fun _ _ _ _ _ => rfl) _ _) fun ties₁ sub₁ _ _ _ => ?_
  have all₁ := forall₂_tied_mono all sub₁
  refine Mirrors.get fun ties₂ sub₂ m n twins => ?_
  have all₂ := forall₂_tied_mono all₁ sub₂
  have frames : (Frame.ofNative (.builtin builtin) m.top.home args).Resembles (Tied ties₂)
      (Frame.ofNative (.builtin builtin) n.top.home args') :=
    ⟨List.forall₂_reverse_iff.2 all₂, .nil, .native _, twins.top.home⟩
  refine Mirrors.bind (mirrored_enter frames) fun ties₃ sub₃ _ _ _ => ?_
  have ran : Mirrored sized ties₃ (fun ties => Option.Rel (Tied ties))
      (Native.run host (.builtin builtin) args) (Native.run host' (.builtin builtin) args') := by
    refine Mirrors.bind (Builtin.mirrored_run builtin (forall₂_tied_mono all₂ sub₃)) ?_
    exact fun ties' sub a b tied => .pure fun _ more => .some (tied.mono more)
  refine ran.bind fun ties₄ sub₄ value value' both => ?_
  cases both with
  | none => exact Mirrors.unit.bind fun _ _ _ _ _ => mirrored_giveBack
  | some tied => exact (mirrored_push tied).bind fun _ _ _ _ _ => mirrored_giveBack

theorem mirrored_invoke (host host' : Host) {callee callee' : Ref} (tied : Tied ties callee callee')
    (all : List.Forall₂ (Tied ties) args args') :
    Mirrored sized ties (fun _ _ _ => True) (invoke host callee args) (invoke host' callee' args') := by
  refine Mirrors.get fun ties' sub m n twins => ?_
  have all' := forall₂_tied_mono all sub
  have scalars := twins.heap.scalar? (tied.mono sub)
  have other : RuntimeError.notCallable (m.display callee) = .notCallable (n.display callee') := by
    rw [twins.display (tied.mono sub)]
  generalize m.heap.scalar? callee = first, n.heap.scalar? callee' = second at scalars
  cases scalars with
  | none => exact mirrored_fail other
  | some scalar =>
      cases scalar with
      | integer value => exact mirrored_fail other
      | symbol name => exact mirrored_fail other
      | moduleCell id => exact mirrored_fail other
      | builtin builtin => exact mirrored_callNative host host' builtin all'
      | function code => exact mirrored_callCode code all'
      | expander code => exact mirrored_fail (by rw [twins.codeName code])

end

/-! ## Instructions -/

section

variable {sized : Bool} {ties : Ties}

theorem mirrored_pushOr {value value' : Option Ref} (both : Option.Rel (Tied ties) value value')
    {onMissing onMissing' : Machine → RuntimeError}
    (errors : ∀ ties', ties ⊆ ties' → ∀ m n, Twins sized ties' m n → onMissing m = onMissing' n) :
    Mirrored sized ties (fun _ _ _ => True) (pushOr value onMissing) (pushOr value' onMissing') := by
  intro ties' sub m n twins
  cases both with
  | none =>
      simp only [pushOr, errors ties' sub m n twins]
      exact .error ⟨ties', List.Subset.refl _, twins⟩
  | some tied => exact .ok ⟨ties', List.Subset.refl _, twins.push (tied.mono sub), trivial⟩

theorem mirrored_popSymbol (op : Opcode) : Mirrored sized ties Tied (popSymbol op) (popSymbol op) := by
  refine mirrored_pop.bind fun ties₁ sub₁ symbol symbol' tied => ?_
  refine Mirrors.get fun ties₂ sub₂ m n twins => ?_
  have tied₂ := tied.mono sub₂
  rw [twins.heap.isSymbol tied₂]
  split
  · exact .pure fun _ more => tied₂.mono more
  · exact mirrored_fail (twins.typeError _ _ tied₂)

theorem Twins.jump {m n : Machine} (twins : m.Twins sized ties n) (pc : Nat) :
    (m.jump pc).Twins sized ties (n.jump pc) := by
  have doing := twins.top.activity
  unfold Machine.jump
  generalize m.top.activity = first, n.top.activity = second at doing
  cases doing with
  | running _ code =>
      exact twins.withTop ⟨twins.top.stack, twins.top.locals, .running pc code, twins.top.home⟩
  | native name => exact twins
  | waiting => exact twins

theorem mirrored_jump (pc : Nat) :
    Mirrored sized ties (fun _ _ _ => True) (modify fun m => m.jump pc) (modify fun m => m.jump pc) :=
  .modify fun _ _ _ _ twins => twins.jump pc

theorem mirrored_setVariable (slot : Nat) {a b : Ref} (tied : Tied ties a b)
    (onMissing : RuntimeError) :
    Mirrored sized ties (fun _ _ _ => True) (setVariable slot a onMissing) (setVariable slot b onMissing) := by
  intro ties' sub m n twins
  have sizes : m.top.locals.size = n.top.locals.size := by
    simpa using twins.top.locals.length_eq
  unfold setVariable
  rw [sizes]
  split
  · refine .ok ⟨ties', List.Subset.refl _, twins.withTop ?_, trivial⟩
    refine ⟨twins.top.stack, ?_, twins.top.activity, twins.top.home⟩
    simp only [Array.toList_setIfInBounds]
    exact forall₂_set twins.top.locals slot (tied.mono sub)
  · exact .error ⟨ties', List.Subset.refl _, twins⟩

theorem takeArgs_twins {stack stack' : List Ref} (piles : List.Forall₂ (Tied ties) stack stack')
    (count : Nat) {args args' : List Ref} (all : List.Forall₂ (Tied ties) args args') :
    Option.Rel (fun p q => List.Forall₂ (Tied ties) p.1 q.1 ∧ List.Forall₂ (Tied ties) p.2 q.2)
      (takeArgs count stack args) (takeArgs count stack' args') := by
  induction count generalizing stack stack' args args' with
  | zero => exact .some ⟨all, piles⟩
  | succ count ih =>
      cases piles with
      | nil => exact .none
      | cons head rest => exact ih rest (.cons head all)

theorem mirrored_callOnStack (host host' : Host) (count : Nat) :
    Mirrored sized ties (fun _ _ _ => True) (callOnStack host count) (callOnStack host' count) := by
  intro ties' sub m n twins
  have taken := takeArgs_twins twins.top.stack count .nil
  unfold callOnStack
  generalize takeArgs count m.top.stack [] = first, takeArgs count n.top.stack [] = second at taken
  cases taken with
  | none => exact .error ⟨ties', List.Subset.refl _, twins⟩
  | @some p q both =>
      rcases p with ⟨args, below⟩
      rcases q with ⟨args', below'⟩
      obtain ⟨all, piles⟩ := both
      dsimp only at all piles
      cases piles with
      | nil => exact .error ⟨ties', List.Subset.refl _, twins⟩
      | @cons _ _ rest rest' head tail =>
          have popped : (m.withTop { m.top with stack := rest }).Twins sized ties'
              (n.withTop { n.top with stack := rest' }) :=
            twins.withTop ⟨tail, twins.top.locals, twins.top.activity, twins.top.home⟩
          exact mirrored_invoke host host' head all ties' (List.Subset.refl _) _ _ popped

/-- Instructions with the same operand and tied constants. -/
theorem mirrored_execute (host host' : Host) {c d : Code} (same : c.Resembles (Tied ties) d)
    (pc : Nat) (op : Opcode) (operand : Nat) :
    Mirrored sized ties (fun _ _ _ => True) (execute host c pc op operand)
      (execute host' d pc op operand) := by
  cases op with
  | pushNull => exact mirrored_push (.null ties)
  | pushConstant =>
      have constants := forall₂_getElem? same.constants operand
      rw [Array.getElem?_toList, Array.getElem?_toList] at constants
      exact mirrored_pushOr constants fun _ _ _ _ _ => rfl
  | loadLocal =>
      intro ties' sub m n twins
      have locals := forall₂_getElem? twins.top.locals operand
      rw [Array.getElem?_toList, Array.getElem?_toList] at locals
      exact mirrored_pushOr locals (fun _ _ _ _ _ => rfl) ties' (List.Subset.refl _) m n twins
  | storeLocal =>
      exact mirrored_pop.bind fun ties' sub a b tied => mirrored_setVariable operand tied _
  | loadModuleValue =>
      refine (mirrored_popSymbol _).bind fun ties₁ sub₁ a b tied => ?_
      refine Mirrors.get fun ties₂ sub₂ m n twins => ?_
      have found := twins.registry.value? twins.heap n.top.home (tied.mono sub₂)
      rw [twins.top.home]
      refine mirrored_pushOr found fun ties₃ sub₃ m n twins => ?_
      rw [twins.display ((tied.mono sub₂).mono sub₃)]
  | loadModuleFunction =>
      refine (mirrored_popSymbol _).bind fun ties₁ sub₁ a b tied => ?_
      refine Mirrors.get fun ties₂ sub₂ m n twins => ?_
      have found := twins.registry.function? twins.heap n.top.home (tied.mono sub₂)
      rw [twins.top.home]
      refine mirrored_pushOr found fun ties₃ sub₃ m n twins => ?_
      rw [twins.display ((tied.mono sub₂).mono sub₃)]
  | branch => exact mirrored_jump operand
  | branchIfNull =>
      refine mirrored_pop.bind fun ties₁ sub₁ a b tied => ?_
      intro ties₂ sub₂ m n twins
      rw [twins.heap.isNull (tied.mono sub₂)]
      split
      · exact mirrored_jump operand ties₂ (List.Subset.refl _) m n twins
      · exact .ok ⟨ties₂, List.Subset.refl _, twins, trivial⟩
  | call => exact mirrored_callOnStack host host' operand
  | ret => exact mirrored_giveBack
  | pop => exact mirrored_pop.bind fun _ _ _ _ _ => .unit

theorem fetch_twins {c d : Code} (same : c.Resembles (Tied ties) d) (pc : Nat) :
    c.fetch pc = d.fetch pc := by
  unfold Code.fetch
  rw [same.words]

theorem mirrored_step (host host' : Host) :
    Mirrored sized ties (fun _ _ _ => True) (step host) (step host') := by
  intro ties' sub m n twins
  have doing := twins.top.activity
  unfold step
  generalize first : m.top.activity = activity, second : n.top.activity = activity' at doing
  cases doing with
  | native name => exact .error ⟨ties', List.Subset.refl _, twins⟩
  | waiting => exact .error ⟨ties', List.Subset.refl _, twins⟩
  | @running c d pc code =>
      dsimp only
      rw [fetch_twins code pc]
      cases d.fetch pc with
      | error e => exact .error ⟨ties', List.Subset.refl _, twins⟩
      | ok instruction =>
          rcases instruction with ⟨op, operand⟩
          dsimp only
          -- Each machine may take a note of its own.
          obtain ⟨journal, noted⟩ := noteIf_eq m m.config.trace .trace fun m =>
            m.traceLine c pc op operand
          obtain ⟨journal', noted'⟩ := noteIf_eq n n.config.trace .trace fun n =>
            n.traceLine d pc op operand
          rw [noted, noted']
          exact mirrored_execute host host' code pc op operand ties' (List.Subset.refl _) _ _
            ((twins.withJournal journal journal').jump _)

/-! ## Runs -/

theorem run_succ (host : Host) (floor fuel : Nat) (m : Machine) :
    run host floor (fuel + 1) m =
      if floor < m.depth then (step host >>= fun _ => run host floor fuel) m else .ok () m := by
  rw [Machine.run, bind_apply]
  cases step host m <;> rfl

/-- The two runs may have different amounts of fuel. -/
theorem mirrored_run (host host' : Host) (floor fuel fuel' : Nat) :
    Mirrored sized ties (fun _ _ _ => True) (run host floor fuel) (run host' floor fuel') := by
  induction fuel generalizing ties fuel' with
  | zero => exact fun ties' _ _ _ twins => .limit₁ trivial ⟨ties', List.Subset.refl _, twins⟩
  | succ fuel ih =>
      cases fuel' with
      | zero => exact fun ties' _ _ _ twins => .limit₂ trivial ⟨ties', List.Subset.refl _, twins⟩
      | succ fuel' =>
          intro ties' sub m n twins
          rw [run_succ, run_succ, twins.depth]
          split
          · have stepped : Mirrored sized ties (fun _ _ _ => True) (step host >>= fun _ => run host floor fuel)
                (step host' >>= fun _ => run host' floor fuel') :=
              (mirrored_step host host').bind fun ties₁ _ _ _ _ => ih fuel'
            exact stepped ties' sub m n twins
          · exact .ok ⟨ties', List.Subset.refl _, twins, trivial⟩

/-- Calls from outside. -/
theorem mirrored_callOut (host host' : Host) (fuel fuel' : Nat)
    {x y : Action RuntimeError Unit} (enters : Mirrored sized ties (fun _ _ _ => True) x y) :
    Mirrored sized ties Tied (callOut host fuel x) (callOut host' fuel' y) := by
  intro ties' sub m n twins
  have waits : (Frame.waiting m.top.home).Resembles (Tied ties') (Frame.waiting n.top.home) :=
    ⟨.nil, .nil, .waiting, twins.top.home⟩
  have work : Mirrored sized ties' (fun _ _ _ => True)
      (do enter (.waiting m.top.home); x; run host (m.depth + 1) fuel)
      (do enter (.waiting n.top.home); y; run host' (m.depth + 1) fuel') := by
    refine (mirrored_enter waits).bind fun ties₁ sub₁ _ _ _ => ?_
    refine (enters.mono (List.Subset.trans sub sub₁)).bind fun ties₂ _ _ _ _ => ?_
    exact mirrored_run host host' _ fuel fuel'
  have both := work ties' (List.Subset.refl _) m n twins
  unfold callOut
  dsimp only
  rw [← twins.depth]
  generalize (do enter (.waiting m.top.home); x; run host (m.depth + 1) fuel :
      Action RuntimeError Unit) m = first,
    (do enter (.waiting n.top.home); y; run host' (m.depth + 1) fuel' :
      Action RuntimeError Unit) n = second at both
  cases both with
  | limit₁ reached failed =>
      obtain ⟨ties₁, sub₁, twins₁⟩ := failed
      exact .limit₁ reached ⟨ties₁, sub₁, twins₁.truncate _⟩
  | limit₂ reached failed =>
      obtain ⟨ties₁, sub₁, twins₁⟩ := failed
      exact .limit₂ reached ⟨ties₁, sub₁, twins₁.truncate _⟩
  | error failed =>
      obtain ⟨ties₁, sub₁, twins₁⟩ := failed
      exact .error ⟨ties₁, sub₁, twins₁.truncate _⟩
  | @ok _ m₁ _ n₁ done =>
      obtain ⟨ties₁, sub₁, twins₁, _⟩ := done
      have frames := twins₁.frameAt? m.depth
      have left := twins₁.truncate m.depth
      dsimp only
      generalize m₁.frameAt? m.depth = frame, n₁.frameAt? m.depth = frame' at frames
      cases frames with
      | none => exact .error ⟨ties₁, sub₁, left⟩
      | @some f g same =>
          rcases f with ⟨stack, locals, activity, home⟩
          rcases g with ⟨stack', locals', activity', home'⟩
          have piles := same.stack
          dsimp only at piles
          cases piles with
          | nil => exact .error ⟨ties₁, sub₁, left⟩
          | cons head _ => exact .ok ⟨ties₁, sub₁, left, head⟩

theorem mirrored_applyWith (host host' : Host) (fuel fuel' : Nat) {callee callee' : Ref}
    (tied : Tied ties callee callee') {args args' : List Ref}
    (all : List.Forall₂ (Tied ties) args args') :
    Mirrored sized ties Tied (applyWith host fuel callee args) (applyWith host' fuel' callee' args') :=
  mirrored_callOut host host' fuel fuel' (mirrored_invoke host host' tied all)

theorem mirrored_expandWith (host host' : Host) (fuel fuel' : Nat) {c d : Code}
    (same : c.Resembles (Tied ties) d) {args args' : List Ref}
    (all : List.Forall₂ (Tied ties) args args') :
    Mirrored sized ties Tied (expandWith host fuel c args) (expandWith host' fuel' d args') :=
  mirrored_callOut host host' fuel fuel' (mirrored_callCode same all)

/-! ## Frames -/

/-- Machines that are the same up to ties, with the frames of the machines `base`. -/
structure Still (sized : Bool) (base : Machine × Machine) (ties : Ties) (m n : Machine) : Prop where
  twins : m.Twins sized ties n
  frames₁ : base.1.SameFrames m
  frames₂ : base.2.SameFrames n

theorem Still.withJournal {base : Machine × Machine} {m n : Machine} (still : m.Still sized base ties n)
    (first second : Journal) : (m.withJournal first).Still sized base ties (n.withJournal second) :=
  ⟨still.twins.withJournal first second, ⟨still.frames₁.top, still.frames₁.callers⟩,
    ⟨still.frames₂.top, still.frames₂.callers⟩⟩

theorem Still.note {base : Machine × Machine} {m n : Machine} (still : m.Still sized base ties n)
    (level level' : NoteLevel) (text text' : Machine → String) :
    (m.note level text).Still sized base ties (n.note level' text') := by
  obtain ⟨first, eq⟩ := note_eq m level text
  obtain ⟨second, eq'⟩ := note_eq n level' text'
  rw [eq, eq']
  exact still.withJournal first second

theorem Twins.ready₁ {m n : Machine} (twins : m.Twins sized ties n) : m.Ready :=
  ⟨twins.heap.tidy₁.wellFormed, twins.heap.tidy₁.plain⟩

theorem Twins.ready₂ {m n : Machine} (twins : m.Twins sized ties n) : n.Ready :=
  ⟨twins.heap.tidy₂.wellFormed, twins.heap.tidy₂.plain⟩

/-- The second machine may be given the frames that go with those of the first. -/
theorem Twins.withFrames₂ {base : Machine × Machine} {s t : Machine} (twins : s.Twins sized ties t)
    (same : base.1.SameFrames s) (top : base.1.top.Resembles (Tied ties) base.2.top)
    (callers : List.Forall₂ (Frame.Resembles (Tied ties)) base.1.callers.toList
      base.2.callers.toList) :
    s.Twins sized ties { t with top := base.2.top, callers := base.2.callers } :=
  ⟨twins.store, twins.registry, by rw [same.top]; exact top, by rw [same.callers]; exact callers,
    twins.user, twins.truth, twins.output, twins.maxFrames⟩

theorem Twins.withFrames₁ {base : Machine × Machine} {s t : Machine} (twins : s.Twins sized ties t)
    (same : base.2.SameFrames t) (top : base.1.top.Resembles (Tied ties) base.2.top)
    (callers : List.Forall₂ (Frame.Resembles (Tied ties)) base.1.callers.toList
      base.2.callers.toList) :
    { s with top := base.1.top, callers := base.1.callers }.Twins sized ties t :=
  ⟨twins.store, twins.registry, by rw [same.top]; exact top, by rw [same.callers]; exact callers,
    twins.user, twins.truth, twins.output, twins.maxFrames⟩

/-- Computations that leave the frames as they were. -/
theorem still_of_mirrors {ε α β : Type} {limit : ε → Prop} {base : Machine × Machine}
    {result : Ties → α → β → Prop} {x : EStateM ε Machine α} {y : EStateM ε Machine β}
    (mirrors : Mirrors (Twins sized) limit ties result x y)
    (frames₁ : ∀ m : Machine, m.Ready → m.SameFrames (after (x m)))
    (frames₂ : ∀ n : Machine, n.Ready → n.SameFrames (after (y n))) :
    Mirrors (Still sized base) limit ties result x y := by
  intro ties' sub m n still
  have both := mirrors ties' sub m n still.twins
  have same₁ := still.frames₁.trans (frames₁ m still.twins.ready₁)
  have same₂ := still.frames₂.trans (frames₂ n still.twins.ready₂)
  have top : base.1.top.Resembles (Tied ties') base.2.top := by
    rw [← still.frames₁.top, ← still.frames₂.top]
    exact still.twins.top
  have callers : List.Forall₂ (Frame.Resembles (Tied ties')) base.1.callers.toList
      base.2.callers.toList := by
    rw [← still.frames₁.callers, ← still.frames₂.callers]
    exact still.twins.callers
  generalize x m = first, y n = second at both same₁ same₂
  cases both with
  | @limit₁ e s t _ reached failed =>
      obtain ⟨ties'', sub', twins⟩ := failed
      exact .limit₁ reached ⟨ties'', sub', twins.withFrames₂ same₁ (top.mono sub')
        (callers.imp fun _ _ same => same.mono sub'), same₁, ⟨rfl, rfl⟩⟩
  | @limit₂ e s t _ reached failed =>
      obtain ⟨ties'', sub', twins⟩ := failed
      exact .limit₂ reached ⟨ties'', sub', twins.withFrames₁ same₂ (top.mono sub')
        (callers.imp fun _ _ same => same.mono sub'), ⟨rfl, rfl⟩, same₂⟩
  | ok done =>
      obtain ⟨ties'', sub', twins, related⟩ := done
      exact .ok ⟨ties'', sub', ⟨twins, same₁, same₂⟩, related⟩
  | error failed =>
      obtain ⟨ties'', sub', twins⟩ := failed
      exact .error ⟨ties'', sub', twins, same₁, same₂⟩

end

end Machine

end LispMachine
