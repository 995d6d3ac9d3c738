import LispMachine.Proofs.Heap.FreeList
import LispMachine.Proofs.Machine.Effect

/-!
# What running code changes

Calls and instructions change the heap by allocating pairs and integers only,
and the printed text. So every cell in use keeps its contents, and modules,
symbols and settings stay as they are.
-/

namespace LispMachine

/-- The state that a computation ends in, whether it fails or not. -/
def after {ε σ α : Type} : EStateM.Result ε σ α → σ
  | .ok _ s => s
  | .error _ s => s

@[simp] theorem after_ok {ε σ α : Type} (a : α) (s : σ) :
    after (.ok a s : EStateM.Result ε σ α) = s := rfl

@[simp] theorem after_error {ε σ α : Type} (e : ε) (s : σ) :
    after (.error e s : EStateM.Result ε σ α) = s := rfl

/-- The cells that running code allocates: pairs and integers. -/
def Cell.IsData : Cell → Prop
  | .pair _ _ => True
  | .scalar (.integer _) => True
  | _ => False

theorem Cell.IsData.used {cell : Cell} (data : cell.IsData) : cell.isFree = false := by
  cases cell with
  | free next => exact absurd data (by simp [Cell.IsData])
  | pair _ _ => rfl
  | scalar _ => rfl

namespace Heap

/-- The second heap comes from the first by allocating pairs and integers. -/
inductive Extends : Heap → Heap → Prop where
  | refl (h : Heap) : Extends h h
  | alloc {h h' h'' : Heap} {cell : Cell} {r : Ref} : Extends h h' → cell.IsData →
      alloc cell h' = .ok r h'' → Extends h h''

theorem Extends.trans {a b c : Heap} (first : a.Extends b) (second : b.Extends c) :
    a.Extends c := by
  induction second with
  | refl => exact first
  | alloc _ data done ih => exact .alloc ih data done

theorem Extends.keeps {h h' : Heap} (extended : h.Extends h') (wf : h.WellFormed) :
    h'.WellFormed ∧ h.Keeps h' := by
  induction extended with
  | refl => exact ⟨wf, .refl _⟩
  | alloc _ data done ih =>
      have allocated := alloc_ok ih.1 data.used done
      exact ⟨allocated.wellFormed, ih.2.trans allocated.kept⟩

theorem Extends.wellFormed {h h' : Heap} (extended : h.Extends h') (wf : h.WellFormed) :
    h'.WellFormed := (extended.keeps wf).1

theorem Extends.unmarked {h h' : Heap} (extended : h.Extends h') (wf : h.WellFormed)
    (clear : h.Unmarked) : h'.Unmarked := by
  induction extended with
  | refl => exact clear
  | alloc before data done ih =>
      exact (alloc_ok (before.wellFormed wf) data.used done).unmarked ih

/-- The limit on the number of arenas is a setting. -/
theorem Extends.maxArenas {h h' : Heap} (extended : h.Extends h') (wf : h.WellFormed) :
    h'.maxArenas = h.maxArenas := by
  induction extended with
  | refl => rfl
  | alloc before data done ih =>
      exact (alloc_ok (before.wellFormed wf) data.used done).maxArenas.trans ih

/-- A scalar other than an integer that is found after an extension was there
    before. -/
theorem Extends.scalar? {h h' : Heap} (extended : h.Extends h') (wf : h.WellFormed) {r : Ref}
    {s : Scalar} (found : h'.cell? r = some (.scalar s)) (other : ∀ value, s ≠ .integer value) :
    h.cell? r = some (.scalar s) := by
  induction extended with
  | refl => exact found
  | @alloc h₁ h₂ cell new before data done ih =>
      have allocated := alloc_ok (before.wellFormed wf) data.used done
      rcases (allocated.live_iff r).1 ⟨_, found, rfl⟩ with rfl | live
      · rw [allocated.found] at found
        cases found
        cases s with
        | integer value => exact absurd rfl (other value)
        | _ => cases data
      · rw [allocated.kept r live] at found
        exact ih found

theorem Keeps.symbol? {h h' : Heap} (kept : h.Keeps h') {r : Ref} {name : String}
    (named : h.symbol? r = some name) : h'.symbol? r = some name := by
  have found := symbol?_eq_some.1 named
  exact symbol?_eq_some.2 ((kept r ⟨_, found, rfl⟩).trans found)

/-- A symbol stays a symbol as long as its cell keeps its contents. -/
theorem Keeps.isSymbol {h h' : Heap} (kept : h.Keeps h') {r : Ref} (symbol : h.isSymbol r = true) :
    h'.isSymbol r = true := by
  obtain ⟨name, found⟩ := isSymbol_iff.1 symbol
  exact isSymbol_iff.2 ⟨name, (kept r ⟨_, found, rfl⟩).trans found⟩

theorem Extends.onlyBuiltins {h h' : Heap} (extended : h.Extends h') (wf : h.WellFormed)
    (plain : Machine.OnlyBuiltins h) : Machine.OnlyBuiltins h' := by
  intro r probe found
  have before := extended.scalar? wf (scalar?_eq_some.1 found) (by simp)
  exact plain r probe (scalar?_eq_some.2 before)

/-! ## Allocation of lists -/

theorem alloc_extends {h : Heap} {cell : Cell} (wf : h.WellFormed) (data : cell.IsData) :
    h.Extends (after (alloc cell h)) := by
  cases done : alloc cell h with
  | ok r h' => exact .alloc (.refl h) data done
  | error e h' =>
      rw [alloc_error wf data.used done]
      exact .refl h

theorem listWithTail_cons (item : Ref) (items : List Ref) (tail : Ref) (h : Heap) :
    listWithTail (item :: items) tail h =
      match listWithTail items tail h with
      | .ok rest h => cons item rest h
      | .error e h => .error e h := by
  simp only [listWithTail, List.foldrM_cons, bind_apply]
  cases List.foldrM (fun item rest => cons item rest) tail items h <;> rfl

theorem listWithTail_extends {h : Heap} (wf : h.WellFormed) (items : List Ref) (tail : Ref) :
    h.Extends (after (listWithTail items tail h)) := by
  induction items with
  | nil => exact .refl h
  | cons item items ih =>
      rw [listWithTail_cons]
      cases done : listWithTail items tail h with
      | error e h' =>
          rw [done] at ih
          exact ih
      | ok rest h' =>
          rw [done] at ih
          exact ih.trans (alloc_extends (ih.wellFormed wf) trivial)

end Heap

namespace Builtin

theorem orHeapError_after (action : EStateM HeapError Heap Ref) (h : Heap) :
    after (orHeapError action h) = after (action h) := by
  unfold orHeapError
  cases action h <;> rfl

theorem Plan.onHeap_extends (plan : Plan) {h : Heap} (wf : h.WellFormed) :
    h.Extends (after (plan.onHeap h)) := by
  cases plan with
  | fail error => exact .refl h
  | give value => exact .refl h
  | makeInteger value =>
      rw [Plan.onHeap, orHeapError_after]
      exact Heap.alloc_extends wf trivial
  | makePair first second =>
      rw [Plan.onHeap, orHeapError_after]
      exact Heap.alloc_extends wf trivial
  | makeList items =>
      rw [Plan.onHeap, orHeapError_after]
      exact Heap.listWithTail_extends wf items .null
  | print text value => exact .refl h

end Builtin

/-- The heap that a call effect leaves. -/
def CallEffect.heap : CallEffect → Heap
  | .returned heap _ _ => heap
  | .entered heap _ => heap
  | .failed _ heap _ => heap

namespace Machine

theorem gathered_extends (code : Code) (args : List Ref) {h : Heap} (wf : h.WellFormed) :
    h.Extends (after (gathered code args h)) := by
  unfold gathered
  split
  · have step := Heap.listWithTail_extends wf (args.drop code.params) .null
    unfold Heap.list
    cases done : Heap.listWithTail (args.drop code.params) .null h <;> rw [done] at step <;>
      exact step
  · exact .refl h

theorem codeEffect_extends (m : Machine) (wf : m.heap.WellFormed) (depth : Nat) (code : Code)
    (args : List Ref) : m.heap.Extends (m.codeEffect depth code args).heap := by
  unfold codeEffect
  split
  · have step := gathered_extends code args wf
    cases done : gathered code args m.heap with
    | error e heap =>
        rw [done] at step
        exact step
    | ok args heap =>
        rw [done] at step
        dsimp only
        split <;> exact step
  · exact .refl _

theorem callEffect_extends (m : Machine) (wf : m.heap.WellFormed) (depth : Nat) (home : ModuleId)
    (callee : Ref) (args : List Ref) :
    m.heap.Extends (m.callEffect depth home callee args).heap := by
  unfold callEffect
  split
  · next builtin _ =>
      unfold nativeEffect
      split
      · split
        · exact .refl _
        · have step := (builtin.plan m args).onHeap_extends wf
          cases done : (builtin.plan m args).onHeap m.heap <;> rw [done] at step <;> exact step
      · exact .refl _
  · exact codeEffect_extends m wf depth _ args
  · exact .refl _
  · exact .refl _

/-! ## Machines -/

/-- The second machine differs from the first in new pairs and integers, the
    printed text, the frames and the journal only. -/
structure Grows (m m' : Machine) : Prop where
  heap : m.heap.Extends m'.heap
  rest : m'.bare = { m.bare.withHeap m'.heap with output := m'.output }

theorem Grows.refl (m : Machine) : m.Grows m := ⟨.refl _, rfl⟩

theorem Grows.trans {a b c : Machine} (first : a.Grows b) (second : b.Grows c) : a.Grows c := by
  refine ⟨first.heap.trans second.heap, ?_⟩
  rw [second.rest, first.rest]
  rfl

/-- Growth does not look at frames and journals. -/
theorem Grows.of_bare {a a' b b' : Machine} (grows : a.Grows b) (first : a.bare = a'.bare)
    (second : b.bare = b'.bare) : a'.Grows b' := by
  have heap : a.heap = a'.heap := (congrArg Machine.heap first :)
  have heap' : b.heap = b'.heap := (congrArg Machine.heap second :)
  have output : b.output = b'.output := (congrArg Machine.output second :)
  refine ⟨by rw [← heap, ← heap']; exact grows.heap, ?_⟩
  rw [← second, ← first, ← heap', ← output]
  exact grows.rest

theorem Grows.withJournal {m m' : Machine} (grows : m.Grows m') (journal : Journal) :
    m.Grows (m'.withJournal journal) := grows.of_bare rfl rfl

theorem Grows.registry {m m' : Machine} (grows : m.Grows m') : m'.registry = m.registry :=
  (congrArg Machine.registry grows.rest :)

theorem Grows.symbols {m m' : Machine} (grows : m.Grows m') : m'.store.symbols = m.store.symbols :=
  (congrArg (fun m : Machine => m.store.symbols) grows.rest :)

theorem Grows.config {m m' : Machine} (grows : m.Grows m') : m'.config = m.config :=
  (congrArg Machine.config grows.rest :)

theorem Grows.user {m m' : Machine} (grows : m.Grows m') : m'.user = m.user :=
  (congrArg Machine.user grows.rest :)

theorem Grows.truth {m m' : Machine} (grows : m.Grows m') : m'.truth = m.truth :=
  (congrArg Machine.truth grows.rest :)

theorem Grows.defined {m m' : Machine} (grows : m.Grows m') : m'.defined = m.defined :=
  (congrArg Machine.defined grows.rest :)

theorem grows_perform (m : Machine) (effect : CallEffect) (extended : m.heap.Extends effect.heap) :
    m.Grows (after (effect.perform m)) := by
  cases effect with
  | returned heap output value => exact ⟨extended, rfl⟩
  | entered heap frame => exact ⟨extended, rfl⟩
  | failed error heap frame => cases frame <;> exact ⟨extended, rfl⟩

/-! ## Runs -/

/-- What running code relies on: a sound free list, and no callable that re-enters
    the machine. -/
structure Ready (m : Machine) : Prop where
  wellFormed : m.heap.WellFormed
  plain : OnlyBuiltins m.heap

theorem Grows.ready {m m' : Machine} (grows : m.Grows m') (ready : m.Ready) : m'.Ready :=
  ⟨grows.heap.wellFormed ready.wellFormed, grows.heap.onlyBuiltins ready.wellFormed ready.plain⟩

theorem Ready.of_bare {m m' : Machine} (ready : m.Ready) (same : m.bare = m'.bare) : m'.Ready := by
  have heap : m.heap = m'.heap := (congrArg Machine.heap same :)
  exact ⟨by rw [← heap]; exact ready.wellFormed, by rw [← heap]; exact ready.plain⟩

theorem Grows.of_same {m m' : Machine} (same : m.bare = m'.bare) : m.Grows m' :=
  (Grows.refl m).of_bare rfl same

theorem Grows.keeps {m m' : Machine} (grows : m.Grows m') (ready : m.Ready) :
    m.heap.Keeps m'.heap := (grows.heap.keeps ready.wellFormed).2

theorem invoke_grows (host : Host) (callee : Ref) (args : List Ref) {m : Machine}
    (ready : m.Ready) : m.Grows (after (invoke host callee args m)) := by
  rw [invoke_apply host callee args m ready.plain]
  exact grows_perform m _ (callEffect_extends m ready.wellFormed _ _ _ _)

theorem callCode_grows (code : Code) (args : List Ref) {m : Machine} (ready : m.Ready) :
    m.Grows (after (callCode code args m)) := by
  rw [callCode_apply]
  exact grows_perform m _ (codeEffect_extends m ready.wellFormed _ _ _)

theorem giveBack_bare (m : Machine) : m.bare = (after (giveBack m)).bare := by
  unfold giveBack
  split
  · rfl
  · cases m.top.stack <;> rfl

theorem step_grows (host : Host) {m : Machine} (ready : m.Ready) :
    m.Grows (after (step host m)) := by
  obtain ⟨journal, eq⟩ := step_apply host m
  rw [eq]
  cases m.top.effect m with
  | stay frame => exact .of_same rfl
  | call frame callee args =>
      have same : ((m.withJournal journal).withTop frame).bare = m.bare := rfl
      exact (invoke_grows host callee args (ready.of_bare same.symm)).of_bare same rfl
  | back frame => exact .of_same (giveBack_bare ((m.withJournal journal).withTop frame))
  | fail frame error => exact .of_same rfl

theorem run_grows (host : Host) (floor fuel : Nat) {m : Machine} (ready : m.Ready) :
    m.Grows (after (run host floor fuel m)) := by
  induction fuel generalizing m with
  | zero => exact .refl m
  | succ fuel ih =>
      unfold run
      split
      · have first := step_grows host ready
        cases done : step host m with
        | error e m' =>
            rw [done] at first
            exact first
        | ok _ m' =>
            rw [done] at first
            exact first.trans (ih (first.ready ready))
      · exact .refl m

theorem truncate_bare (m : Machine) (count : Nat) : m.bare = (m.truncate count).bare := by
  unfold truncate
  split <;> rfl

theorem callOut_grows (host : Host) (fuel : Nat) {enterCall : Action RuntimeError Unit}
    (enters : ∀ m : Machine, m.Ready → m.Grows (after (enterCall m))) {m : Machine}
    (ready : m.Ready) : m.Grows (after (callOut host fuel enterCall m)) := by
  have ended : ∀ m', m.Grows m' → m.Grows (m'.truncate m.depth) := fun m' grows =>
    grows.of_bare rfl (truncate_bare m' m.depth)
  simp only [callOut, bind_apply, enter_apply]
  by_cases full : m.config.maxFrames ≤ m.depth
  · simp only [full, if_true]
    exact ended m (.refl m)
  · simp only [full, if_false]
    have same : m.bare = (m.withFrame (.waiting m.top.home)).bare := rfl
    have first : m.Grows (after (enterCall (m.withFrame (.waiting m.top.home)))) :=
      (enters _ (ready.of_bare same)).of_bare same.symm rfl
    cases entered : enterCall (m.withFrame (.waiting m.top.home)) with
    | error e m₁ =>
        rw [entered] at first
        exact ended m₁ first
    | ok _ m₁ =>
        rw [entered, after_ok] at first
        have second := first.trans (run_grows host (m.depth + 1) fuel (first.ready ready))
        dsimp only
        cases ran : run host (m.depth + 1) fuel m₁ with
        | error e m₂ =>
            rw [ran] at second
            exact ended m₂ second
        | ok _ m₂ =>
            rw [ran] at second
            dsimp only
            split <;> exact ended m₂ second

theorem applyWith_grows (host : Host) (fuel : Nat) (callee : Ref) (args : List Ref) {m : Machine}
    (ready : m.Ready) : m.Grows (after (applyWith host fuel callee args m)) :=
  callOut_grows host fuel (fun _ ready => invoke_grows host callee args ready) ready

theorem expandWith_grows (host : Host) (fuel : Nat) (code : Code) (args : List Ref) {m : Machine}
    (ready : m.Ready) : m.Grows (after (expandWith host fuel code args m)) :=
  callOut_grows host fuel (fun _ ready => callCode_grows code args ready) ready

end Machine

end LispMachine
