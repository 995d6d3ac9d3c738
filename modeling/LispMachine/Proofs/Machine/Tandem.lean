import LispMachine.Proofs.Machine.Growth

/-!
# Frames below the current call

Code that runs above a frame neither sees nor changes the frames up to and
including it, until it returns and pushes its result there. So two machines that
differ only below take the same steps. With the machine itself as its own
partner this says that a call leaves the frames below alone.
-/

namespace LispMachine

namespace Machine

theorem effect_bare (m : Machine) (frame : Frame) : frame.effect m.bare = frame.effect m := by
  unfold Frame.effect
  cases frame.activity with
  | running code pc =>
      dsimp only
      cases code.fetch pc with
      | error e => rfl
      | ok instruction =>
          rcases instruction with ⟨op, operand⟩
          cases op <;> rfl
  | native name => rfl
  | waiting => rfl

/-- Returning to a caller. -/
theorem giveBack_push {m : Machine} {callers : Array Frame} {caller : Frame}
    (below : m.callers = callers.push caller) :
    giveBack m =
      match m.top.stack with
      | value :: _ => .ok () { m with top := caller.push value, callers := callers }
      | [] =>
          .error (.failed (.emptyReturn
            (match m.top.activity with
            | .running code _ => m.codeName code
            | .native name => name
            | .waiting => "<driver>"))) { m with top := caller, callers := callers } := by
  simp only [giveBack, below, Array.back?_push, Array.pop_push]
  cases m.top.stack <;> rfl

/-- Two machines that differ below a point only: at the frames `lower` and `frame`,
    which begin their stacks of callers, and in the journal. -/
structure Tandem (lower₁ lower₂ : Array Frame) (frame₁ frame₂ : Frame) (m₁ m₂ : Machine) :
    Prop where
  bare : m₁.bare = m₂.bare
  size : lower₁.size = lower₂.size
  top : m₁.top = m₂.top
  callers : ∃ upper : Array Frame,
    m₁.callers = lower₁.push frame₁ ++ upper ∧ m₂.callers = lower₂.push frame₂ ++ upper

/-- The two results of a step in tandem: both go on, both return a value to the
    frame below, or both fail in the same way. -/
inductive TandemStep (lower₁ lower₂ : Array Frame) (frame₁ frame₂ : Frame) (m : Machine) :
    EStateM.Result (Stop RuntimeError) Machine Unit →
    EStateM.Result (Stop RuntimeError) Machine Unit → Prop where
  | on {m₁ m₂ : Machine} : Tandem lower₁ lower₂ frame₁ frame₂ m₁ m₂ → m.Grows m₁ →
      TandemStep lower₁ lower₂ frame₁ frame₂ m (.ok () m₁) (.ok () m₂)
  | back {m₁ m₂ : Machine} (value : Ref) : m₁.bare = m₂.bare → m.Grows m₁ →
      m₁.callers = lower₁ → m₁.top = frame₁.push value →
      m₂.callers = lower₂ → m₂.top = frame₂.push value →
      TandemStep lower₁ lower₂ frame₁ frame₂ m (.ok () m₁) (.ok () m₂)
  | failed {m₁ m₂ : Machine} {error : RuntimeError} : m₁.bare = m₂.bare → m.Grows m₁ →
      (∃ upper, m₁.callers.push m₁.top = lower₁.push frame₁ ++ upper) →
      TandemStep lower₁ lower₂ frame₁ frame₂ m (.error (.failed error) m₁)
        (.error (.failed error) m₂)

section

variable {lower₁ lower₂ : Array Frame} {frame₁ frame₂ : Frame} {m m₁ m₂ : Machine}

theorem Tandem.depth (tandem : Tandem lower₁ lower₂ frame₁ frame₂ m₁ m₂) :
    m₁.depth = m₂.depth := by
  obtain ⟨upper, first, second⟩ := tandem.callers
  simp [Machine.depth, first, second, tandem.size]

theorem bare_withHeap {m₁ m₂ : Machine} (same : m₁.bare = m₂.bare) (heap : Heap) :
    (m₁.withHeap heap).bare = (m₂.withHeap heap).bare :=
  (congrArg (fun m : Machine => m.withHeap heap) same :)

theorem bare_withOutput {m₁ m₂ : Machine} (same : m₁.bare = m₂.bare) (output : String) :
    { m₁ with output := output }.bare = { m₂ with output := output }.bare :=
  (congrArg (fun m : Machine => { m with output := output }) same :)

/-- Carrying out a call in tandem. -/
theorem Tandem.perform (tandem : Tandem lower₁ lower₂ frame₁ frame₂ m₁ m₂) (effect : CallEffect)
    (grows : m.Grows (after (effect.perform m₁))) :
    TandemStep lower₁ lower₂ frame₁ frame₂ m (effect.perform m₁) (effect.perform m₂) := by
  obtain ⟨bare, size, top, upper, first, second⟩ := tandem
  cases effect with
  | returned heap output value =>
      refine .on ⟨bare_withOutput (bare_withHeap bare heap) output, size, ?_, upper, first, second⟩
        grows
      simp only [push, withHeap, top]
  | entered heap frame =>
      refine .on ⟨bare_withHeap bare heap, size, rfl, upper.push m₁.top, ?_, ?_⟩ grows
      · simp [withFrame, withHeap, first]
      · simp [withFrame, withHeap, second, top]
  | failed error heap frame =>
      cases frame with
      | none =>
          refine .failed (bare_withHeap bare heap) grows ⟨upper.push m₁.top, ?_⟩
          simp [withHeap, first]
      | some frame =>
          refine .failed (bare_withHeap bare heap) grows ⟨(upper.push m₁.top).push frame, ?_⟩
          simp [withFrame, withHeap, first]

theorem Tandem.giveBack (tandem : Tandem lower₁ lower₂ frame₁ frame₂ m₁ m₂) (grows : m.Grows m₁) :
    TandemStep lower₁ lower₂ frame₁ frame₂ m (giveBack m₁) (giveBack m₂) := by
  obtain ⟨bare, size, top, upper, first, second⟩ := tandem
  have names : ∀ code, m₁.codeName code = m₂.codeName code := by
    intro code
    exact (congrArg (fun m : Machine => m.codeName code) bare :)
  by_cases none : upper.size = 0
  · obtain rfl := Array.eq_empty_of_size_eq_zero none
    rw [Array.append_empty] at first second
    rw [giveBack_push first, giveBack_push second, ← top]
    cases stack : m₁.top.stack with
    | nil =>
        simp only [names]
        exact .failed bare (grows.of_bare rfl rfl) ⟨#[], by simp⟩
    | cons value rest => exact .back value bare (grows.of_bare rfl rfl) rfl rfl rfl rfl
  · obtain ⟨above, caller, rfl⟩ := Array.eq_push_of_size_ne_zero none
    rw [Array.append_push] at first second
    rw [giveBack_push first, giveBack_push second, ← top]
    cases stack : m₁.top.stack with
    | nil =>
        simp only [names]
        exact .failed bare (grows.of_bare rfl rfl) ⟨above.push caller, by simp⟩
    | cons value rest =>
        exact .on ⟨bare, size, rfl, above, rfl, rfl⟩ (grows.of_bare rfl rfl)

/-- Machines in tandem take the same step. -/
theorem Tandem.step (tandem : Tandem lower₁ lower₂ frame₁ frame₂ m₁ m₂) (host₁ host₂ : Host)
    (wf : m₁.heap.WellFormed) (plain : OnlyBuiltins m₁.heap) :
    TandemStep lower₁ lower₂ frame₁ frame₂ m₁ (step host₁ m₁) (step host₂ m₂) := by
  obtain ⟨journal₁, eq₁⟩ := step_apply host₁ m₁
  obtain ⟨journal₂, eq₂⟩ := step_apply host₂ m₂
  have effects : m₂.top.effect m₂ = m₁.top.effect m₁ := by
    rw [← effect_bare m₁, ← effect_bare m₂, tandem.bare, tandem.top]
  have moved : ∀ frame, Tandem lower₁ lower₂ frame₁ frame₂
      ((m₁.withJournal journal₁).withTop frame) ((m₂.withJournal journal₂).withTop frame) := by
    intro frame
    exact ⟨tandem.bare, tandem.size, rfl, tandem.callers⟩
  have heaps : m₂.heap = m₁.heap := (congrArg Machine.heap tandem.bare.symm :)
  rw [eq₁, eq₂, effects]
  cases m₁.top.effect m₁ with
  | stay frame => exact .on (moved frame) ((Grows.refl m₁).of_bare rfl rfl)
  | call frame callee args =>
      simp only [Effect.perform]
      rw [invoke_apply host₁ callee args ((m₁.withJournal journal₁).withTop frame) plain,
        invoke_apply host₂ callee args ((m₂.withJournal journal₂).withTop frame)
          (by rw [← heaps] at plain; exact plain),
        ← callEffect_bare ((m₂.withJournal journal₂).withTop frame), ← (moved frame).bare,
        callEffect_bare, ← (moved frame).depth, ← (moved frame).top]
      refine (moved frame).perform _ ?_
      refine (grows_perform ((m₁.withJournal journal₁).withTop frame) _ ?_).of_bare rfl rfl
      exact callEffect_extends ((m₁.withJournal journal₁).withTop frame) wf _ _ _ _
  | back frame => exact (moved frame).giveBack ((Grows.refl m₁).of_bare rfl rfl)
  | fail frame error =>
      obtain ⟨upper, first, _⟩ := tandem.callers
      refine .failed tandem.bare ((Grows.refl m₁).of_bare rfl rfl) ⟨upper.push frame, ?_⟩
      simp [withTop, withJournal, first]

/-! ## Runs -/

/-- A number of steps, none of which starts with `floor` frames or fewer. -/
inductive Runs (host : Host) (floor : Nat) : Nat → Machine → Machine → Prop where
  | refl (m : Machine) : Runs host floor 0 m m
  | step {count : Nat} {m m' m'' : Machine} : floor < m.depth → step host m = .ok () m' →
      Runs host floor count m' m'' → Runs host floor (count + 1) m m''

theorem Runs.trans {host : Host} {floor a b : Nat} {m m' m'' : Machine}
    (first : Runs host floor a m m') (second : Runs host floor b m' m'') :
    Runs host floor (a + b) m m'' := by
  induction first with
  | refl => rwa [Nat.zero_add]
  | step deep done _ ih =>
      rw [Nat.add_right_comm]
      exact .step deep done (ih second)

theorem Runs.lower {host : Host} {floor floor' count : Nat} {m m' : Machine}
    (runs : Runs host floor count m m') (le : floor' ≤ floor) :
    Runs host floor' count m m' := by
  induction runs with
  | refl => exact .refl _
  | step deep done _ ih => exact .step (by omega) done ih

theorem Runs.run {host : Host} {floor count : Nat} {m m' : Machine}
    (runs : Runs host floor count m m') (fuel : Nat) :
    Machine.run host floor (fuel + count) m = Machine.run host floor fuel m' := by
  induction runs with
  | refl => rfl
  | step deep done _ ih =>
      rw [← Nat.add_assoc, Machine.run, if_pos deep, done]
      exact ih

/-- What becomes of the first machine when the second, in tandem with it, runs to
    an end: it makes the same return or fails in the same way, and as long as the
    second has not ended it is not done either. -/
inductive TandemRun (host : Host) (lower₁ lower₂ : Array Frame) (frame₁ frame₂ : Frame)
    (fuel : Nat) (m : Machine) : EStateM.Result (Stop RuntimeError) Machine Unit → Prop where
  | back {m₁ m₂ : Machine} (count : Nat) (value : Ref) :
      Runs host (lower₁.size + 1) count m m₁ → m₁.bare = m₂.bare → m.Grows m₁ →
      m₁.callers = lower₁ → m₁.top = frame₁.push value →
      m₂.callers = lower₂ → m₂.top = frame₂.push value →
      TandemRun host lower₁ lower₂ frame₁ frame₂ fuel m (.ok () m₂)
  | failed {m₁ m₁' m₂ : Machine} {error : RuntimeError} (count : Nat) :
      Runs host (lower₁.size + 1) count m m₁ → lower₁.size + 1 < m₁.depth →
      step host m₁ = .error (.failed error) m₁' → m₁'.bare = m₂.bare → m.Grows m₁' →
      (∃ upper, m₁'.callers.push m₁'.top = lower₁.push frame₁ ++ upper) →
      TandemRun host lower₁ lower₂ frame₁ frame₂ fuel m (.error (.failed error) m₂)
  | outOfFuel {m₁ m₂ : Machine} : Runs host (lower₁.size + 1) fuel m m₁ →
      TandemRun host lower₁ lower₂ frame₁ frame₂ fuel m (.error .outOfFuel m₂)

theorem TandemRun.prepend {host : Host} {fuel : Nat} {m m' : Machine}
    {result : EStateM.Result (Stop RuntimeError) Machine Unit}
    (deep : lower₁.size + 1 < m.depth) (done : Machine.step host m = .ok () m')
    (grows : m.Grows m') (rest : TandemRun host lower₁ lower₂ frame₁ frame₂ fuel m' result) :
    TandemRun host lower₁ lower₂ frame₁ frame₂ (fuel + 1) m result := by
  cases rest with
  | back count value runs bare more callers top callers' top' =>
      exact .back (count + 1) value (.step deep done runs) bare (grows.trans more) callers top
        callers' top'
  | failed count runs deep' fails bare more frames =>
      exact .failed (count + 1) (.step deep done runs) deep' fails bare (grows.trans more) frames
  | outOfFuel runs => exact .outOfFuel (.step deep done runs)

theorem Tandem.run (host₁ host₂ : Host) (fuel : Nat)
    (tandem : Tandem lower₁ lower₂ frame₁ frame₂ m₁ m₂) (wf : m₁.heap.WellFormed)
    (plain : OnlyBuiltins m₁.heap) :
    TandemRun host₁ lower₁ lower₂ frame₁ frame₂ fuel m₁
      (Machine.run host₂ (lower₂.size + 1) fuel m₂) := by
  induction fuel generalizing m₁ m₂ with
  | zero => exact .outOfFuel (.refl m₁)
  | succ fuel ih =>
      have deep : lower₁.size + 1 < m₁.depth := by
        obtain ⟨upper, first, _⟩ := tandem.callers
        simp only [Machine.depth, first, Array.size_append, Array.size_push]
        omega
      have deep₂ : lower₂.size + 1 < m₂.depth := by
        rw [← tandem.depth, ← tandem.size]
        exact deep
      rw [Machine.run, if_pos deep₂]
      have pair := tandem.step host₁ host₂ wf plain
      cases first : Machine.step host₁ m₁ with
      | error e m₁' =>
          cases second : Machine.step host₂ m₂ with
          | ok _ m₂' =>
              rw [first, second] at pair
              cases pair
          | error e' m₂' =>
              rw [first, second] at pair
              cases pair with
              | failed bare grows frames =>
                  exact .failed 0 (.refl m₁) deep first bare grows frames
      | ok _ m₁' =>
          cases second : Machine.step host₂ m₂ with
          | error e' m₂' =>
              rw [first, second] at pair
              cases pair
          | ok _ m₂' =>
              rw [first, second] at pair
              dsimp only
              cases pair with
              | on tandem' grows =>
                  have extended := grows.heap
                  refine TandemRun.prepend deep first grows (ih tandem' (extended.wellFormed wf) ?_)
                  exact extended.onlyBuiltins wf plain
              | back value bare grows callers top callers' top' =>
                  -- The frame below is on top again, so the run is over.
                  cases fuel with
                  | zero => exact .outOfFuel (.step deep first (.refl m₁'))
                  | succ fuel =>
                      have shallow : ¬ lower₂.size + 1 < m₂'.depth := by
                        simp [Machine.depth, callers']
                      rw [Machine.run, if_neg shallow]
                      exact .back 1 value (.step deep first (.refl m₁')) bare grows callers top
                        callers' top'

end

end Machine

end LispMachine
