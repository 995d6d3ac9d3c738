import LispMachine.Proofs.Heap.Founded
import LispMachine.Proofs.Twins.Intact

/-!
# What running code builds

An intact machine that runs code allocates pairs of cells that are in use, and
integers. So whatever it runs, its heap is built from the one before.
-/

namespace LispMachine

namespace Builtin

/-- The cells that a plan puts into new pairs. -/
def Plan.parts : Plan → List Ref
  | .makePair first second => [first, second]
  | .makeList items => items
  | _ => []

theorem argument_mem (args : List Ref) (i : Nat) : argument args i = .null ∨ argument args i ∈ args := by
  unfold argument
  rw [List.getD_eq_getElem?_getD]
  cases found : args[i]? with
  | none => exact .inl rfl
  | some r => exact .inr (List.mem_of_getElem? found)

/-- Library callables make pairs of their arguments. -/
theorem mem_plan_parts {builtin : Builtin} {m : Machine} {args : List Ref} {r : Ref}
    (member : r ∈ (builtin.plan m args).parts) : r = .null ∨ r ∈ args := by
  have arithmetic : ∀ builtin compute, r ∉ (arithmeticPlan m builtin compute args).parts := by
    intro builtin compute inside
    unfold arithmeticPlan at inside
    split at inside
    · cases inside
    · split at inside <;> cases inside
  have comparison : ∀ builtin holds, r ∉ (comparisonPlan m builtin holds args).parts := by
    intro builtin holds inside
    unfold comparisonPlan at inside
    split at inside <;> cases inside
  have half : ∀ builtin part list, r ∉ (halfPlan m builtin part list).parts := by
    intro builtin part list inside
    unfold halfPlan at inside
    split at inside
    · cases inside
    · split at inside <;> cases inside
  cases builtin with
  | add => exact absurd member (arithmetic _ _)
  | subtract => exact absurd member (arithmetic _ _)
  | multiply => exact absurd member (arithmetic _ _)
  | less => exact absurd member (comparison less fun a b => a.toInt < b.toInt)
  | equal => exact absurd member (comparison _ _)
  | same => cases member
  | car => exact absurd member (half _ _ _)
  | cdr => exact absurd member (half _ _ _)
  | cons =>
      simp only [plan, Plan.parts, List.mem_cons, List.not_mem_nil, or_false] at member
      rcases member with rfl | rfl
      · exact argument_mem args 0
      · exact argument_mem args 1
  | list => exact .inr member
  | isNull => cases member
  | print => cases member

theorem Plan.builds (plan : Plan) {h : Heap} (wf : h.WellFormed)
    (held : ∀ r ∈ plan.parts, h.Held r) : h.Builds (after (plan.onHeap h)) := by
  cases plan with
  | fail error => exact .refl h
  | give value => exact .refl h
  | makeInteger value =>
      rw [Plan.onHeap, orHeapError_after]
      exact Heap.builds_alloc wf rfl (by simp [Cell.children, Scalar.children])
  | makePair first second =>
      rw [Plan.onHeap, orHeapError_after]
      exact Heap.builds_alloc wf rfl held
  | makeList items =>
      rw [Plan.onHeap, orHeapError_after]
      exact Heap.builds_list wf held
  | print text value => exact .refl h

end Builtin

namespace Machine

/-! ## Calls -/

section

variable {m : Machine} {args : List Ref} (wf : m.heap.WellFormed)
  (held : ∀ r ∈ args, m.heap.Held r)

include wf held

theorem gathered_builds (code : Code) : m.heap.Builds (after (gathered code args m.heap)) := by
  unfold gathered
  split
  · have step : m.heap.Builds (after (Heap.list (args.drop code.params) m.heap)) :=
      Heap.builds_list wf fun r member => held r (List.mem_of_mem_drop member)
    cases done : Heap.list (args.drop code.params) m.heap <;> rw [done] at step <;> exact step
  · exact .refl _

theorem codeEffect_builds (depth : Nat) (code : Code) :
    m.heap.Builds (m.codeEffect depth code args).heap := by
  unfold codeEffect
  split
  · have step := gathered_builds wf held code
    cases done : gathered code args m.heap with
    | error e heap =>
        rw [done] at step
        exact step
    | ok args heap =>
        rw [done] at step
        dsimp only
        split <;> exact step
  · exact .refl _

theorem callEffect_builds (depth : Nat) (home : ModuleId) (callee : Ref) :
    m.heap.Builds (m.callEffect depth home callee args).heap := by
  unfold callEffect
  split
  · next builtin _ =>
      unfold nativeEffect
      split
      · split
        · exact .refl _
        · have step := (builtin.plan m args).builds wf fun r member => by
            rcases Builtin.mem_plan_parts member with null | inside
            · exact .inl null
            · exact held r inside
          cases done : (builtin.plan m args).onHeap m.heap <;> rw [done] at step <;> exact step
      · exact .refl _
  · exact codeEffect_builds wf held depth _
  · exact .refl _
  · exact .refl _

end

theorem perform_heap (m : Machine) (effect : CallEffect) :
    (after (effect.perform m)).heap = effect.heap := by
  cases effect with
  | returned heap output value => rfl
  | entered heap frame => rfl
  | failed error heap frame => cases frame <;> rfl

section

variable {m : Machine} {args : List Ref} (ready : m.Ready) (held : ∀ r ∈ args, m.heap.Held r)

include ready held

theorem invoke_builds (host : Host) (callee : Ref) :
    m.heap.Builds (after (invoke host callee args m)).heap := by
  rw [invoke_apply host callee args m ready.plain, perform_heap]
  exact callEffect_builds ready.wellFormed held _ _ _

theorem callCode_builds (code : Code) : m.heap.Builds (after (callCode code args m)).heap := by
  rw [callCode_apply, perform_heap]
  exact codeEffect_builds ready.wellFormed held _ _

end

/-! ## Steps -/

theorem mem_takeArgs {count : Nat} {stack taken args rest : List Ref} {r : Ref}
    (done : takeArgs count stack taken = some (args, rest)) (member : r ∈ args) :
    r ∈ taken ∨ r ∈ stack := by
  induction count generalizing stack taken with
  | zero =>
      cases done
      exact .inl member
  | succ count ih =>
      cases stack with
      | nil => cases done
      | cons value stack =>
          rcases ih done with held | held
          · rcases List.mem_cons.1 held with rfl | held
            · exact .inr List.mem_cons_self
            · exact .inl held
          · exact .inr (List.mem_cons_of_mem _ held)

/-- Only a call instruction calls, and it takes its arguments from the work stack. -/
theorem takeArgs_of_call {m : Machine} {code : Code} {pc operand : Nat} {frame next : Frame}
    {op : Opcode} {callee : Ref} {args : List Ref}
    (calls : op.effect m code pc operand frame = .call next callee args) :
    ∃ rest, takeArgs operand frame.stack [] = some (args, callee :: rest) := by
  cases op with
  | call =>
      simp only [Opcode.effect] at calls
      split at calls
      · next taken =>
          cases calls
          exact ⟨_, taken⟩
      · cases calls
  | _ =>
      simp only [Opcode.effect, Frame.popped, Frame.lookedUp, Frame.pushedOr] at calls
      repeat' split at calls
      all_goals cases calls

theorem mem_stack_of_call {m : Machine} {frame next : Frame} {callee r : Ref} {args : List Ref}
    (calls : frame.effect m = .call next callee args) (member : r ∈ args) : r ∈ frame.stack := by
  unfold Frame.effect at calls
  split at calls
  · split at calls
    · cases calls
    · obtain ⟨_, taken⟩ := takeArgs_of_call calls
      rcases mem_takeArgs taken member with none_ | inside
      · cases none_
      · exact inside
  · cases calls

theorem Intact.ready {m : Machine} (intact : m.Intact) : m.Ready :=
  ⟨intact.tidy.wellFormed, intact.tidy.plain⟩

theorem giveBack_heap (m : Machine) : (after (giveBack m)).heap = m.heap :=
  (congrArg Machine.heap (giveBack_bare m)).symm

theorem Intact.step_builds {m : Machine} (intact : m.Intact) (host : Host) :
    m.heap.Builds (LispMachine.after (step host m)).heap := by
  obtain ⟨journal, eq⟩ := step_apply host m
  rw [eq]
  cases effect : m.top.effect m with
  | stay frame => exact .refl _
  | call frame callee args =>
      have same : ((m.withJournal journal).withTop frame).bare = m.bare := rfl
      refine invoke_builds (m := (m.withJournal journal).withTop frame)
        (intact.ready.of_bare same.symm) (fun r member => ?_) host callee
      have top : m.top ∈ m.frames := by simp [frames]
      refine intact.held r (mem_frame_roots top ?_)
      simp [Frame.roots, mem_stack_of_call effect member]
  | back frame =>
      rw [Effect.perform, giveBack_heap]
      exact .refl _
  | fail frame error => exact .refl _

/-! ## Runs -/

/-- What mirrors itself ends in an intact machine, with a result that is related to
    itself. -/
theorem Intact.ends {m : Machine} {ε α : Type} {limit : ε → Prop} {result : Ties → α → α → Prop}
    {state : Ties → Machine → Machine → Prop} {x : EStateM ε Machine α}
    (twins : ∀ {ties s t}, state ties s t → s.Twins true ties t) (start : state m.heap.selfTies m m)
    (mirrors : Mirrors state limit m.heap.selfTies result x x) :
    (LispMachine.after (x m)).Intact ∧
      ∀ a m', x m = .ok a m' → ∃ ties, m'.Twins true ties m' ∧ result ties a a := by
  have both := mirrors _ (List.Subset.refl _) m m start
  generalize x m = r at both
  cases both with
  | ok done =>
      obtain ⟨ties, _, ended, related⟩ := done
      refine ⟨(twins ended).intact, ?_⟩
      rintro a m' ⟨⟩
      exact ⟨ties, twins ended, related⟩
  | error failed =>
      obtain ⟨_, _, ended⟩ := failed
      exact ⟨(twins ended).intact, by rintro _ _ ⟨⟩⟩
  | limit₁ _ failed =>
      obtain ⟨_, _, ended⟩ := failed
      exact ⟨(twins ended).intact, by rintro _ _ ⟨⟩⟩
  | limit₂ _ failed =>
      obtain ⟨_, _, ended⟩ := failed
      exact ⟨(twins ended).intact₂, by rintro _ _ ⟨⟩⟩

section

variable {m : Machine}

/-- The result of what mirrors itself and leaves the frames alone. -/
theorem Intact.related {ε α : Type} {limit : ε → Prop} {result : Ties → α → α → Prop}
    {x : EStateM ε Machine α} {a : α} {m' : Machine} (intact : m.Intact)
    (mirrors : Mirrors (Still true (m, m)) limit m.heap.selfTies result x x)
    (done : x m = .ok a m') : ∃ ties, m'.Twins true ties m' ∧ result ties a a :=
  (Intact.ends Still.twins ⟨intact.twins, .refl m, .refl m⟩ mirrors).2 a m' done

theorem Intact.step (intact : m.Intact) (host : Host) :
    (LispMachine.after (Machine.step host m)).Intact :=
  (Intact.ends id intact.twins (mirrored_step host host)).1

theorem Intact.run_builds (intact : m.Intact) (host : Host) (floor fuel : Nat) :
    m.heap.Builds (LispMachine.after (run host floor fuel m)).heap := by
  induction fuel generalizing m with
  | zero => exact .refl _
  | succ fuel ih =>
      unfold run
      split
      · have first := intact.step_builds host
        have intact' := intact.step host
        cases done : Machine.step host m with
        | error e m' =>
            rw [done] at first
            exact first
        | ok _ m' =>
            rw [done] at first intact'
            exact first.trans (ih intact')
      · exact .refl _

theorem truncate_heap (m : Machine) (count : Nat) : (m.truncate count).heap = m.heap :=
  (congrArg Machine.heap (truncate_bare m count)).symm

/-- A call from outside, given what entering it does above the frame that waits for it. -/
theorem callOut_builds (host : Host) (fuel : Nat) {enterCall : Action RuntimeError Unit}
    (builds : m.heap.Builds (after (enterCall (m.withFrame (.waiting m.top.home)))).heap)
    (intact : (after (enterCall (m.withFrame (.waiting m.top.home)))).Intact) :
    m.heap.Builds (after (callOut host fuel enterCall m)).heap := by
  have work : m.heap.Builds (after (driven host fuel enterCall m)).heap := by
    simp only [driven, bind_apply, enter_apply]
    by_cases full : m.config.maxFrames ≤ m.depth
    · simp only [full, if_true]
      exact .refl _
    · simp only [full, if_false]
      cases entered : enterCall (m.withFrame (.waiting m.top.home)) with
      | error e m₁ =>
          rw [entered] at builds
          exact builds
      | ok _ m₁ =>
          rw [entered] at builds intact
          exact builds.trans (intact.run_builds host _ fuel)
  rw [callOut_apply]
  cases done : driven host fuel enterCall m with
  | error e m' =>
      rw [done] at work
      rw [after_error, truncate_heap]
      exact work
  | ok _ m' =>
      rw [done] at work
      dsimp only
      split
      · rw [after_ok, truncate_heap]
        exact work
      · rw [after_error, truncate_heap]
        exact work

theorem forall₂_tied {h : Heap} {items : List Ref} (held : ∀ r ∈ items, h.Held r) :
    List.Forall₂ (Tied h.selfTies) items items :=
  List.forall₂_same.2 fun r member => (held r member).tied

theorem Intact.waiting (intact : m.Intact) : (m.withFrame (.waiting m.top.home)).Intact :=
  intact.withFrame (by simp [Frame.waiting, Frame.roots, Frame.codeRoots])

/-- A call of a value that the machine may hold builds on its heap, and so does its
    result. -/
theorem Intact.applyWith (intact : m.Intact) (host : Host) (fuel : Nat) {callee : Ref}
    {args : List Ref} (callable : m.heap.Held callee) (held : ∀ r ∈ args, m.heap.Held r) :
    m.heap.Builds (LispMachine.after (Machine.applyWith host fuel callee args m)).heap ∧
      (LispMachine.after (Machine.applyWith host fuel callee args m)).Intact := by
  have entered := Intact.ends id intact.waiting.twins
    (mirrored_invoke host host callable.tied (forall₂_tied held))
  have builds := invoke_builds (m := m.withFrame (.waiting m.top.home)) intact.waiting.ready held
    host callee
  exact ⟨callOut_builds host fuel builds entered.1, (Intact.ends id intact.twins
    (mirrored_applyWith host host fuel fuel callable.tied (forall₂_tied held))).1⟩

/-- The expansion of a macro call builds on the heap. -/
theorem Intact.expandWith (intact : m.Intact) (host : Host) (fuel : Nat) {code : Code}
    {args : List Ref} (known : ∀ r ∈ code.children, m.heap.Held r)
    (held : ∀ r ∈ args, m.heap.Held r) :
    m.heap.Builds (LispMachine.after (Machine.expandWith host fuel code args m)).heap ∧
      (LispMachine.after (Machine.expandWith host fuel code args m)).Intact ∧
      ∀ value m', Machine.expandWith host fuel code args m = .ok value m' → m'.heap.Held value := by
  have same : code.Resembles (Tied m.heap.selfTies) code :=
    Code.resembles_self fun r member => (known r member).tied
  have entered := Intact.ends id intact.waiting.twins
    (mirrored_callCode same (forall₂_tied held))
  have builds := callCode_builds (m := m.withFrame (.waiting m.top.home)) intact.waiting.ready held
    code
  obtain ⟨after_, result⟩ := Intact.ends id intact.twins
    (mirrored_expandWith host host fuel fuel same (forall₂_tied held))
  refine ⟨callOut_builds host fuel builds entered.1, after_, fun value m' done => ?_⟩
  obtain ⟨ties, twins, tied⟩ := result value m' done
  exact twins.held tied

end

end Machine

end LispMachine
