import LispMachine.Proofs.Machine.Frames

/-!
# What stands behind a computation

Running code does not look at the work stack of the bottom frame, nor at the text printed
before it began. So a machine with another such stack and with more text in front of its
output does the same, and leaves what the first one leaves, with that stack and that text.
-/

namespace LispMachine

/-- The result with its state changed. -/
def mapState {ε σ α : Type} (f : σ → σ) : EStateM.Result ε σ α → EStateM.Result ε σ α
  | .ok a s => .ok a (f s)
  | .error e s => .error e (f s)

@[simp] theorem mapState_ok {ε σ α : Type} (f : σ → σ) (a : α) (s : σ) :
    mapState f (.ok a s : EStateM.Result ε σ α) = .ok a (f s) := rfl

@[simp] theorem mapState_error {ε σ α : Type} (f : σ → σ) (e : ε) (s : σ) :
    mapState f (.error e s : EStateM.Result ε σ α) = .error e (f s) := rfl

/-- A change of the state that a computation does not notice, in states with a property that
    the computation keeps. -/
def Oblivious {ε σ α : Type} (change : σ → σ) (holds : σ → Prop) (x : EStateM ε σ α) : Prop :=
  ∀ s, holds s → x (change s) = mapState change (x s) ∧ holds (after (x s))

section

variable {ε σ α β : Type} {change : σ → σ} {holds : σ → Prop}

theorem Oblivious.bind {x : EStateM ε σ α} {f : α → EStateM ε σ β} (first : Oblivious change holds x)
    (second : ∀ a, Oblivious change holds (f a)) : Oblivious change holds (x >>= f) := by
  intro s start
  obtain ⟨same, kept⟩ := first s start
  rw [bind_apply, bind_apply, same]
  cases done : x s with
  | ok a s' =>
      rw [done] at kept
      exact second a s' kept
  | error e s' =>
      rw [done] at kept
      exact ⟨rfl, kept⟩

theorem oblivious_pure (a : α) : Oblivious change holds (pure a : EStateM ε σ α) :=
  fun _ start => ⟨rfl, start⟩

theorem oblivious_throw (e : ε) : Oblivious change holds (throw e : EStateM ε σ α) :=
  fun _ start => ⟨rfl, start⟩

/-- A computation that looks at the state first, but not at what the change affects. -/
theorem Oblivious.get {f : σ → EStateM ε σ β} (same : ∀ s, f (change s) = f s)
    (next : ∀ s, Oblivious change holds (f s)) : Oblivious change holds (get >>= f) := by
  intro s start
  rw [bind_apply, bind_apply, get_apply, get_apply]
  dsimp only
  rw [same]
  exact next s s start

theorem oblivious_modify {f : σ → σ} (same : ∀ s, f (change s) = change (f s))
    (kept : ∀ s, holds s → holds (f s)) :
    Oblivious change holds (modify f : EStateM ε σ PUnit) :=
  fun s start => ⟨congrArg (EStateM.Result.ok _) (same s), kept s start⟩

end

theorem modify_push {α : Type} (xs : Array α) (x : α) (f : α → α) (some : xs.size ≠ 0) :
    (xs.push x).modify 0 f = (xs.modify 0 f).push x := by
  rcases xs with ⟨_ | ⟨y, rest⟩⟩
  · exact absurd rfl some
  · simp [Array.modify, Array.modifyM]

/-- A work stack for the bottom frame, and text in front of the output. -/
structure Backdrop where
  stack : List Ref
  printed : String

namespace Machine

/-- The machine before a backdrop. -/
def against (b : Backdrop) (m : Machine) : Machine :=
  { m with
    top := if m.callers.size = 0 then { m.top with stack := b.stack } else m.top
    callers := m.callers.modify 0 fun frame => { frame with stack := b.stack }
    output := b.printed ++ m.output }

section

variable {b : Backdrop} {m : Machine}

theorem against_idle (b : Backdrop) (idle : m.callers = #[]) :
    m.against b =
      { m with top := { m.top with stack := b.stack }, output := b.printed ++ m.output } := by
  simp [against, idle]

theorem against_top (b : Backdrop) (busy : m.callers.size ≠ 0) : (m.against b).top = m.top :=
  if_neg busy

theorem against_home (b : Backdrop) (m : Machine) : (m.against b).top.home = m.top.home := by
  simp only [against]
  split <;> rfl

@[simp] theorem against_size (b : Backdrop) (m : Machine) :
    (m.against b).callers.size = m.callers.size := Array.size_modify

@[simp] theorem against_depth (b : Backdrop) (m : Machine) : (m.against b).depth = m.depth := by
  simp [depth]

theorem against_withTop (frame : Frame) (busy : m.callers.size ≠ 0) :
    (m.withTop frame).against b = (m.against b).withTop frame := by
  simp [against, withTop, busy]

theorem against_withFrame (b : Backdrop) (m : Machine) (frame : Frame) :
    (m.withFrame frame).against b = (m.against b).withFrame frame := by
  by_cases idle : m.callers = #[]
  · simp [against, withFrame, idle, Array.modify, Array.modifyM]
  · have busy : m.callers.size ≠ 0 := fun none => idle (Array.eq_empty_of_size_eq_zero none)
    simp [against, withFrame, modify_push m.callers m.top _ busy, busy]

theorem against_note (b : Backdrop) (m : Machine) (level : NoteLevel) {text : Machine → String}
    (same : text (m.against b) = text m) :
    (m.note level text).against b = (m.against b).note level text := by
  have keeps : (m.against b).journal.keeps level = m.journal.keeps level := rfl
  simp only [note, keeps, same]
  split <;> rfl

theorem against_jump (b : Backdrop) (pc : Nat) (busy : m.callers.size ≠ 0) :
    (m.jump pc).against b = (m.against b).jump pc := by
  simp only [jump, against_top b busy]
  split
  · exact against_withTop _ busy
  · rfl

/-- Keeping frames from the bottom on keeps the bottom frame. -/
theorem against_truncate (b : Backdrop) (m : Machine) (count : Nat) :
    (m.truncate count).against b = (m.against b).truncate count := by
  have frames : (m.against b).callers[count - 1]? =
      if 0 = count - 1 then m.callers[count - 1]?.map fun frame => { frame with stack := b.stack }
      else m.callers[count - 1]? := Array.getElem?_modify
  simp only [truncate, frames]
  cases found : m.callers[count - 1]? with
  | none => simp
  | some frame =>
      have inside : count - 1 < m.callers.size := (Array.getElem?_eq_some_iff.1 found).1
      by_cases bottom : 0 = count - 1
      · simp [against, ← bottom]
      · have kept : (m.callers.shrink (count - 1)).size ≠ 0 := by
          rw [Array.size_shrink]
          omega
        simp only [if_neg bottom, against, if_neg kept]
        congr 1
        apply Array.toList_inj.1
        simp only [Array.toList_modify, Array.toList_shrink]
        rcases m.callers.toList with _ | ⟨first, rest⟩
        · simp
        · obtain ⟨n, more⟩ := Nat.exists_eq_succ_of_ne_zero (Ne.symm bottom)
          simp [more]

/-- The frames above the bottom one are what they were. -/
theorem against_frameAt? (b : Backdrop) (m : Machine) {height : Nat} (above : height ≠ 0) :
    (m.against b).frameAt? height = m.frameAt? height := by
  have frames : (m.against b).callers[height]? =
      if 0 = height then m.callers[height]?.map fun frame => { frame with stack := b.stack }
      else m.callers[height]? := Array.getElem?_modify
  simp only [frameAt?, against_size, frames, if_neg above.symm]
  split
  · next top => rw [against_top b (by rwa [← top])]
  · rfl

/-! ## Calls and steps -/

theorem integers_against (b : Backdrop) (m : Machine) (function : String) (args : List Ref) :
    Builtin.integers (m.against b) function args = Builtin.integers m function args := by
  induction args with
  | nil => rfl
  | cons r rest ih =>
      simp only [Builtin.integers, ih]
      rfl

theorem plan_against (b : Backdrop) (m : Machine) (builtin : Builtin) (args : List Ref) :
    builtin.plan (m.against b) args = builtin.plan m args := by
  cases builtin <;>
    simp only [Builtin.plan, Builtin.arithmeticPlan, Builtin.comparisonPlan, integers_against] <;> rfl

theorem output_against (b : Backdrop) (plan : Builtin.Plan) (output : String) :
    plan.output (b.printed ++ output) = b.printed ++ plan.output output := by
  cases plan with
  | print text value => simp only [Builtin.Plan.output, String.append_assoc, String.push_eq_append]
  | _ => rfl

end

end Machine

/-- The call effect with text in front of the output. -/
def CallEffect.against (b : Backdrop) : CallEffect → CallEffect
  | .returned heap output value => .returned heap (b.printed ++ output) value
  | .entered heap frame => .entered heap frame
  | .failed error heap frame => .failed error heap frame

namespace Machine

section

variable {b : Backdrop} {m : Machine}

theorem nativeEffect_against (b : Backdrop) (m : Machine) (depth : Nat) (home : ModuleId)
    (builtin : Builtin) (args : List Ref) :
    (m.against b).nativeEffect depth home builtin args =
      (m.nativeEffect depth home builtin args).against b := by
  have printed := output_against b (builtin.plan m args) m.output
  have same : (m.against b).heap = m.heap ∧ (m.against b).config = m.config ∧
      (m.against b).output = b.printed ++ m.output := ⟨rfl, rfl, rfl⟩
  simp only [nativeEffect, plan_against, same]
  split
  · split
    · rfl
    · cases (builtin.plan m args).onHeap m.heap with
      | error e heap => rfl
      | ok value heap => exact congrArg (CallEffect.returned heap · value) printed
  · rfl

theorem codeEffect_against (b : Backdrop) (m : Machine) (depth : Nat) (code : Code)
    (args : List Ref) :
    (m.against b).codeEffect depth code args = (m.codeEffect depth code args).against b := by
  have same : (m.against b).heap = m.heap ∧ (m.against b).config = m.config := ⟨rfl, rfl⟩
  simp only [codeEffect, same]
  split
  · cases gathered code args m.heap with
    | error e heap => rfl
    | ok args heap =>
        dsimp only
        split <;> rfl
  · rfl

theorem callEffect_against (b : Backdrop) (m : Machine) (depth : Nat) (home : ModuleId)
    (callee : Ref) (args : List Ref) :
    (m.against b).callEffect depth home callee args =
      (m.callEffect depth home callee args).against b := by
  have same : (m.against b).heap = m.heap := rfl
  simp only [callEffect, same]
  split
  · exact nativeEffect_against b m depth home _ args
  · exact codeEffect_against b m depth _ args
  · rfl
  · rfl

theorem perform_against (b : Backdrop) (busy : m.callers.size ≠ 0) (effect : CallEffect) :
    (effect.against b).perform (m.against b) = mapState (against b) (effect.perform m) := by
  cases effect with
  | returned heap output value => simp [CallEffect.against, CallEffect.perform, push, against, withHeap, busy]
  | entered heap frame => exact congrArg (EStateM.Result.ok ()) (against_withFrame b (m.withHeap heap) frame).symm
  | failed error heap frame =>
      cases frame with
      | none => rfl
      | some frame =>
          exact congrArg (EStateM.Result.error _) (against_withFrame b (m.withHeap heap) frame).symm

theorem giveBack_against (b : Backdrop) (deep : 1 < m.callers.size) :
    giveBack (m.against b) = mapState (against b) (giveBack m) := by
  obtain ⟨below, caller, callers⟩ := Array.eq_push_of_size_ne_zero (Nat.ne_of_gt (Nat.lt_trans Nat.one_pos deep))
  have busy : below.size ≠ 0 := by
    rw [callers, Array.size_push] at deep
    omega
  have callers' : (m.against b).callers =
      (below.modify 0 fun frame => { frame with stack := b.stack }).push caller := by
    simp only [against, callers, modify_push below caller _ busy]
  rw [giveBack_push callers, giveBack_push callers', against_top b (by omega)]
  cases m.top.stack with
  | nil => simp [against, busy, codeName]
  | cons value rest => simp [against, busy]

theorem effect_against (b : Backdrop) (m : Machine) (code : Code) (pc operand : Nat) (frame : Frame)
    (op : Opcode) : op.effect (m.against b) code pc operand frame = op.effect m code pc operand frame := by
  cases op <;> rfl

theorem perform_effect_against (b : Backdrop) (host : Host) (plain : OnlyBuiltins m.heap)
    (deep : 1 < m.callers.size) (effect : Effect) :
    effect.perform host (m.against b) = mapState (against b) (effect.perform host m) := by
  have busy : m.callers.size ≠ 0 := by omega
  cases effect with
  | stay frame => exact congrArg (EStateM.Result.ok ()) (against_withTop frame busy).symm
  | fail frame error => exact congrArg (EStateM.Result.error _) (against_withTop frame busy).symm
  | back frame =>
      simp only [Effect.perform, ← against_withTop frame busy]
      exact @giveBack_against (m.withTop frame) b deep
  | call frame callee args =>
      have plain' : OnlyBuiltins ((m.withTop frame).against b).heap := plain
      simp only [Effect.perform, ← against_withTop frame busy]
      rw [invoke_apply host callee args _ plain', invoke_apply host callee args (m.withTop frame) plain,
        callEffect_against, against_depth, against_home]
      exact @perform_against (m.withTop frame) b busy _

theorem traceLine_against (b : Backdrop) (busy : m.callers.size ≠ 0) (code : Code) (pc : Nat)
    (op : Opcode) (operand : Nat) :
    (m.against b).traceLine code pc op operand = m.traceLine code pc op operand := by
  simp only [traceLine, against_depth, against_top b busy]
  rfl

theorem step_against (b : Backdrop) (host : Host) (plain : OnlyBuiltins m.heap)
    (deep : 1 < m.callers.size) :
    step host (m.against b) = mapState (against b) (step host m) := by
  have busy : m.callers.size ≠ 0 := by omega
  simp only [step, against_top b busy]
  split
  · next code pc _ =>
      split
      · rfl
      · next op operand _ =>
          have noted : (if (m.against b).config.trace then
                (m.against b).note .trace fun m => m.traceLine code pc op operand
              else m.against b) =
              (if m.config.trace then m.note .trace fun m => m.traceLine code pc op operand
              else m).against b := by
            rw [show (m.against b).config.trace = m.config.trace from rfl]
            split
            · exact (against_note b m .trace (traceLine_against b busy code pc op operand)).symm
            · rfl
          obtain ⟨journal, eq⟩ := noteIf_eq m m.config.trace .trace fun m => m.traceLine code pc op operand
          rw [noted, eq, ← @against_jump (m.withJournal journal) b _ busy]
          have deep' : 1 < ((m.withJournal journal).jump (pc + 1 + op.width)).callers.size := by
            unfold jump
            split <;> exact deep
          have plain' : OnlyBuiltins ((m.withJournal journal).jump (pc + 1 + op.width)).heap := by
            unfold jump
            split <;> exact plain
          rw [execute_apply, execute_apply, against_top b (by omega), effect_against]
          exact perform_effect_against b host plain' deep' _
  · rfl

/-! ## Runs and calls from outside -/

/-- A run that stops above the bottom frame and the one over it. -/
theorem run_against (b : Backdrop) (host : Host) {floor : Nat} (high : 1 < floor) (fuel : Nat)
    (ready : m.Ready) : run host floor fuel (m.against b) = mapState (against b) (run host floor fuel m) := by
  induction fuel generalizing m with
  | zero => rfl
  | succ fuel ih =>
      simp only [run, against_depth]
      split
      · next running =>
          have deep : 1 < m.callers.size := by
            unfold depth at running
            omega
          have grown := step_grows host ready
          rw [step_against b host ready.plain deep]
          cases stepped : step host m with
          | error e m' => rfl
          | ok _ m' =>
              rw [stepped] at grown
              exact ih (grown.ready ready)
      · rfl

/-- A call from outside, if what it enters does not look at the backdrop. -/
theorem callOut_against (b : Backdrop) (host : Host) (fuel : Nat) {enterCall : Action RuntimeError Unit}
    (enters : ∀ m : Machine, m.Ready → m.callers.size ≠ 0 →
      enterCall (m.against b) = mapState (against b) (enterCall m))
    (grows : ∀ m : Machine, m.Ready → m.Grows (after (enterCall m))) (ready : m.Ready) :
    callOut host fuel enterCall (m.against b) = mapState (against b) (callOut host fuel enterCall m) := by
  have work : driven host fuel enterCall (m.against b) =
      mapState (against b) (driven host fuel enterCall m) := by
    have limits : (m.against b).config.maxFrames = m.config.maxFrames := rfl
    simp only [driven, bind_apply, enter_apply, against_depth, against_home, limits]
    by_cases full : m.config.maxFrames ≤ m.depth
    · simp only [full, if_true, mapState_error]
    · simp only [full, if_false]
      have ready₁ : (m.withFrame (.waiting m.top.home)).Ready := ready.of_bare rfl
      have busy : (m.withFrame (.waiting m.top.home)).callers.size ≠ 0 := by simp [withFrame]
      have grown := grows _ ready₁
      rw [← against_withFrame, enters _ ready₁ busy]
      cases entered : enterCall (m.withFrame (.waiting m.top.home)) with
      | error e m₁ => rfl
      | ok _ m₁ =>
          rw [entered] at grown
          exact run_against b host (by simp [depth]) fuel (grown.ready ready₁)
  rw [callOut_apply, callOut_apply, against_depth, work]
  cases driven host fuel enterCall m with
  | error e m' => exact congrArg (EStateM.Result.error e) (against_truncate b m' m.depth).symm
  | ok _ m' =>
      have found : (m'.against b).frameAt? m.depth = m'.frameAt? m.depth :=
        against_frameAt? b m' (Nat.succ_ne_zero _)
      simp only [mapState_ok, found, ← against_truncate]
      rcases m'.frameAt? m.depth with _ | ⟨_ | ⟨value, rest⟩, locals, activity, home⟩ <;> rfl

theorem oblivious_expandWith (b : Backdrop) (host : Host) (fuel : Nat) (code : Code)
    (args : List Ref) : Oblivious (against b) Ready (expandWith host fuel code args) := by
  intro m ready
  refine ⟨callOut_against b host fuel (fun n _ busy => ?_)
    (fun n ready => callCode_grows code args ready) ready,
    (expandWith_grows host fuel code args ready).ready ready⟩
  rw [callCode_apply, callCode_apply, against_depth, codeEffect_against]
  exact perform_against b busy _

theorem oblivious_applyWith (b : Backdrop) (host : Host) (fuel : Nat) (callee : Ref)
    (args : List Ref) : Oblivious (against b) Ready (applyWith host fuel callee args) := by
  intro m ready
  refine ⟨callOut_against b host fuel (fun n ready busy => ?_)
    (fun n ready => invoke_grows host callee args ready) ready,
    (applyWith_grows host fuel callee args ready).ready ready⟩
  have plain : OnlyBuiltins (n.against b).heap := ready.plain
  rw [invoke_apply host callee args _ plain, invoke_apply host callee args n ready.plain,
    callEffect_against, against_depth, against_home]
  exact perform_against b busy _

end

end Machine

end LispMachine
