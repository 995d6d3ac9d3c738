import LispMachine.Proofs.Machine.Tandem

/-!
# Calls from outside and the frames below them

A call from outside begins above the frames that are there and works above them
only. However it ends, it leaves them as they were.
-/

namespace LispMachine

namespace Machine

/-- The frames `lower` stand at the bottom of the callers. -/
def Above (lower : Array Frame) (m : Machine) : Prop := ∃ upper, m.callers = lower ++ upper

/-- The frames are the same. -/
structure SameFrames (m m' : Machine) : Prop where
  top : m'.top = m.top
  callers : m'.callers = m.callers

theorem SameFrames.refl (m : Machine) : m.SameFrames m := ⟨rfl, rfl⟩

theorem SameFrames.trans {a b c : Machine} (first : a.SameFrames b) (second : b.SameFrames c) :
    a.SameFrames c :=
  ⟨second.top.trans first.top, second.callers.trans first.callers⟩

section

variable {lower : Array Frame} {m : Machine}

theorem Above.withFrame (above : m.Above lower) (frame : Frame) :
    (m.withFrame frame).Above lower := by
  obtain ⟨upper, callers⟩ := above
  exact ⟨upper.push m.top, by simp [Machine.withFrame, callers]⟩

theorem Above.perform (above : m.Above lower) (effect : CallEffect) :
    (after (effect.perform m)).Above lower := by
  cases effect with
  | returned heap output value => exact above
  | entered heap frame => exact @Above.withFrame lower (m.withHeap heap) above frame
  | failed error heap frame =>
      cases frame with
      | none => exact above
      | some frame => exact @Above.withFrame lower (m.withHeap heap) above frame

/-- Returning drops the topmost frame only. -/
theorem Above.giveBack (above : m.Above lower) (deep : lower.size < m.callers.size) :
    (after (giveBack m)).Above lower := by
  obtain ⟨upper, callers⟩ := above
  have some : upper.size ≠ 0 := by
    rw [callers, Array.size_append] at deep
    omega
  obtain ⟨above, caller, rfl⟩ := Array.eq_push_of_size_ne_zero some
  rw [Array.append_push] at callers
  rw [giveBack_push callers]
  cases m.top.stack <;> exact ⟨above, rfl⟩

/-- A step leaves the frames below alone, unless it returns to one of them. -/
theorem Above.step_or_back (host : Host) (ready : m.Ready) (above : m.Above lower) :
    (after (step host m)).Above lower ∨
      ∃ journal frame, step host m = Machine.giveBack ((m.withJournal journal).withTop frame) := by
  obtain ⟨journal, eq⟩ := step_apply host m
  rw [eq]
  cases m.top.effect m with
  | stay frame => exact .inl above
  | fail frame error => exact .inl above
  | back frame => exact .inr ⟨journal, frame, rfl⟩
  | call frame callee args =>
      left
      simp only [Effect.perform]
      rw [invoke_apply host callee args ((m.withJournal journal).withTop frame) ready.plain]
      exact @Above.perform lower ((m.withJournal journal).withTop frame) above _

theorem Above.step (host : Host) (ready : m.Ready) (above : m.Above lower)
    (deep : lower.size < m.callers.size) : (after (step host m)).Above lower := by
  rcases above.step_or_back host ready with kept | ⟨journal, frame, eq⟩
  · exact kept
  · rw [eq]
    exact @Above.giveBack lower ((m.withJournal journal).withTop frame) above deep

/-- A run that stops above some frames leaves them alone. -/
theorem Above.run (host : Host) {floor : Nat} (high : lower.size < floor) (fuel : Nat)
    (ready : m.Ready) (above : m.Above lower) : (after (run host floor fuel m)).Above lower := by
  induction fuel generalizing m with
  | zero => exact above
  | succ fuel ih =>
      unfold Machine.run
      split
      · next running =>
          have deep : lower.size < m.callers.size := by
            unfold Machine.depth at running
            omega
          have stepped := above.step host ready deep
          have grown := step_grows host ready
          cases done : Machine.step host m with
          | error e m' =>
              rw [done] at stepped
              exact stepped
          | ok _ m' =>
              rw [done] at stepped grown
              exact ih (grown.ready ready) stepped
      · exact above

/-- A step above a frame that waits for a result stays above it or returns a value to it. -/
theorem Above.step_back (host : Host) {caller : Frame} {m' : Machine} (ready : m.Ready)
    (above : m.Above (lower.push caller)) (done : Machine.step host m = .ok () m') :
    m'.Above (lower.push caller) ∨ ∃ value, m'.top = caller.push value ∧ m'.callers = lower := by
  by_cases deep : (lower.push caller).size < m.callers.size
  · have kept := above.step host ready deep
    rw [done] at kept
    exact .inl kept
  · rcases above.step_or_back host ready with kept | ⟨journal, frame, eq⟩
    · rw [done] at kept
      exact .inl kept
    · right
      obtain ⟨upper, callers⟩ := above
      have none : upper = #[] := by
        apply Array.eq_empty_of_size_eq_zero
        rw [callers, Array.size_append] at deep
        omega
      rw [none, Array.append_empty] at callers
      have below : ((m.withJournal journal).withTop frame).callers = lower.push caller := callers
      rw [eq, giveBack_push below] at done
      cases stack : ((m.withJournal journal).withTop frame).top.stack with
      | nil =>
          rw [stack] at done
          cases done
      | cons value rest =>
          rw [stack] at done
          cases done
          exact ⟨value, rfl, rfl⟩

/-- A call that runs to its end returns a value to the frame that has made it. -/
theorem run_back (host : Host) {caller : Frame} {fuel : Nat} {m' : Machine} (ready : m.Ready)
    (above : m.Above (lower.push caller)) (done : run host (lower.size + 1) fuel m = .ok () m') :
    ∃ value, m'.top = caller.push value ∧ m'.callers = lower := by
  induction fuel generalizing m with
  | zero => cases done
  | succ fuel ih =>
      have deep : lower.size + 1 < m.depth := by
        obtain ⟨upper, callers⟩ := above
        simp only [depth, callers, Array.size_append, Array.size_push]
        omega
      unfold Machine.run at done
      rw [if_pos deep] at done
      have grown := step_grows host ready
      cases stepped : Machine.step host m with
      | error e m₁ =>
          rw [stepped] at done
          cases done
      | ok _ m₁ =>
          rw [stepped] at done grown
          rcases above.step_back host ready stepped with kept | ⟨value, top, callers⟩
          · exact ih (grown.ready ready) kept done
          · have back : m₁.depth = lower.size + 1 := by simp only [depth, callers]
            cases fuel with
            | zero => cases done
            | succ fuel =>
                dsimp only at done
                unfold Machine.run at done
                rw [if_neg (by omega)] at done
                cases done
                exact ⟨value, top, callers⟩

/-- Dropping what is above the frames of a machine. -/
theorem Above.truncate_eq {m' : Machine} (above : m'.Above (m.callers.push m.top)) :
    m'.truncate m.depth = { m' with top := m.top, callers := m.callers } := by
  obtain ⟨upper, callers⟩ := above
  have found : m'.callers[m.depth - 1]? = some m.top := by
    simp [callers, Machine.depth, Array.getElem?_append]
  simp only [Machine.truncate, found]
  simp [callers, Machine.depth]

theorem Above.truncate {m' : Machine} (above : m'.Above (m.callers.push m.top)) :
    m.SameFrames (m'.truncate m.depth) := by
  rw [above.truncate_eq]
  exact ⟨rfl, rfl⟩

theorem truncate_depth (m : Machine) : m.truncate m.depth = m := by
  simp [Machine.truncate, Machine.depth]

/-- The part of a call from outside that runs above a frame of its own. -/
def driven (host : Host) (fuel : Nat) (enterCall : Action RuntimeError Unit) (m : Machine) :
    EStateM.Result (Stop RuntimeError) Machine Unit :=
  (do
    enter (.waiting m.top.home)
    enterCall
    run host (m.depth + 1) fuel : Action RuntimeError Unit) m

theorem callOut_apply (host : Host) (fuel : Nat) (enterCall : Action RuntimeError Unit)
    (m : Machine) :
    callOut host fuel enterCall m =
      match driven host fuel enterCall m with
      | .error e m' => .error e (m'.truncate m.depth)
      | .ok _ m' =>
          match m'.frameAt? m.depth with
          | some ⟨value :: _, _, _, _⟩ => .ok value (m'.truncate m.depth)
          | _ => .error (.failed (.emptyReturn "apply")) (m'.truncate m.depth) := rfl

/-- A call from outside does not begin, or it leaves all frames alone. -/
theorem driven_above (host : Host) (fuel : Nat) {enterCall : Action RuntimeError Unit}
    (enters : ∀ (m : Machine) (lower : Array Frame), m.Ready → m.Above lower →
      (after (enterCall m)).Above lower)
    (grows : ∀ m : Machine, m.Ready → m.Grows (after (enterCall m))) (ready : m.Ready) :
    after (driven host fuel enterCall m) = m ∨
      (after (driven host fuel enterCall m)).Above (m.callers.push m.top) := by
  simp only [driven, bind_apply, enter_apply]
  by_cases full : m.config.maxFrames ≤ m.depth
  · simp only [full, if_true, after_error]
    exact Or.inl trivial
  · simp only [full, if_false]
    refine Or.inr ?_
    have ready₁ : (m.withFrame (.waiting m.top.home)).Ready := ready.of_bare rfl
    have above₁ : (m.withFrame (.waiting m.top.home)).Above (m.callers.push m.top) :=
      ⟨#[], by simp [Machine.withFrame]⟩
    have above₂ := enters _ _ ready₁ above₁
    have grown := grows _ ready₁
    cases entered : enterCall (m.withFrame (.waiting m.top.home)) with
    | error e m₁ =>
        rw [entered] at above₂
        exact above₂
    | ok _ m₁ =>
        rw [entered, after_ok] at above₂ grown
        have high : (m.callers.push m.top).size < m.depth + 1 := by simp [Machine.depth]
        exact above₂.run host high fuel (grown.ready ready₁)

/-- Calls from outside leave the frames as they were. -/
theorem callOut_frames (host : Host) (fuel : Nat) {enterCall : Action RuntimeError Unit}
    (enters : ∀ (m : Machine) (lower : Array Frame), m.Ready → m.Above lower →
      (after (enterCall m)).Above lower)
    (grows : ∀ m : Machine, m.Ready → m.Grows (after (enterCall m))) (ready : m.Ready) :
    m.SameFrames (after (callOut host fuel enterCall m)) := by
  have restored : m.SameFrames ((after (driven host fuel enterCall m)).truncate m.depth) := by
    rcases driven_above host fuel enters grows ready with same | above
    · rw [same, truncate_depth]
      exact .refl m
    · exact above.truncate
  rw [callOut_apply]
  cases ran : driven host fuel enterCall m with
  | error e m' =>
      rw [ran] at restored
      exact restored
  | ok _ m' =>
      rw [ran] at restored
      dsimp only
      split <;> exact restored

theorem Above.invoke (host : Host) (callee : Ref) (args : List Ref) (ready : m.Ready)
    (above : m.Above lower) : (after (invoke host callee args m)).Above lower := by
  rw [invoke_apply host callee args m ready.plain]
  exact above.perform _

theorem Above.callCode (code : Code) (args : List Ref) (above : m.Above lower) :
    (after (callCode code args m)).Above lower := by
  rw [callCode_apply]
  exact above.perform _

theorem applyWith_frames (host : Host) (fuel : Nat) (callee : Ref) (args : List Ref)
    (ready : m.Ready) : m.SameFrames (after (applyWith host fuel callee args m)) :=
  callOut_frames host fuel (fun _ _ ready above => above.invoke host callee args ready)
    (fun _ ready => invoke_grows host callee args ready) ready

theorem expandWith_frames (host : Host) (fuel : Nat) (code : Code) (args : List Ref)
    (ready : m.Ready) : m.SameFrames (after (expandWith host fuel code args m)) :=
  callOut_frames host fuel (fun _ _ _ above => above.callCode code args)
    (fun _ ready => callCode_grows code args ready) ready

end

end Machine

end LispMachine
