import LispMachine.Machine.Watched
import LispMachine.Proofs.Machine.Frames

/-!
# Arbitrary code is contained

Whatever the words of the functions that are called and of the macros that are
expanded, the watched machine never traps and does exactly what the machine does,
as long as a frame has room for the variables of each.
-/

namespace LispMachine

namespace Machine

/-! ## Where modules come from -/

/-- The frames and the cells of the heap name registered modules only, and so does the
    setting for code without a module. -/
structure Housed (m : Machine) : Prop where
  top : m.top.home < m.registry.size
  callers : ∀ frame ∈ m.callers, frame.home < m.registry.size
  user : m.user < m.registry.size
  cells : ∀ r id, m.heap.scalar? r = some (.moduleCell id) → id < m.registry.size

section

variable {m m' : Machine}

theorem Housed.namesModules (housed : m.Housed) : m.namesModules = true := by
  simp only [Machine.namesModules, Array.all_eq_true']
  intro entry member
  obtain ⟨slot, found⟩ := Array.getElem?_of_mem member
  split
  · next id holds =>
      refine decide_eq_true (housed.cells (.ofSlot slot) id (Heap.scalar?_eq_some.2 ?_))
      simp [found, holds]
  · rfl

theorem Housed.homeOf (housed : m.Housed) (code : Code) : m.homeOf code < m.registry.size := by
  unfold Machine.homeOf
  split
  · next id found => exact housed.cells _ id found
  · exact housed.user

/-- Running code keeps the modules; so only the frames are to be looked at. -/
theorem Housed.grows (housed : m.Housed) (ready : m.Ready) (grows : m.Grows m')
    (top : m'.top.home < m.registry.size)
    (callers : ∀ frame ∈ m'.callers, frame.home < m.registry.size) : m'.Housed := by
  refine ⟨?_, ?_, ?_, ?_⟩
  · rw [grows.registry]
    exact top
  · rw [grows.registry]
    exact callers
  · rw [grows.registry, grows.user]
    exact housed.user
  · intro r id found
    rw [grows.registry]
    have before := grows.heap.scalar? ready.wellFormed (Heap.scalar?_eq_some.1 found) (by simp)
    exact housed.cells r id (Heap.scalar?_eq_some.2 before)

end

/-! ## Room for variables -/

/-- A frame has room for the variables of every function and macro of the heap. -/
def Roomy (m : Machine) : Prop :=
  ∀ r code, m.heap.code? r = some code → code.slots ≤ maxVariables

/-- Running code allocates no functions and no macros. -/
theorem Roomy.grows {m m' : Machine} (roomy : m.Roomy) (ready : m.Ready) (grows : m.Grows m') :
    m'.Roomy := by
  intro r code held
  obtain ⟨s, found, coded⟩ := Heap.code?_eq_some.1 held
  have other : ∀ value, s ≠ .integer value := by
    rintro value rfl
    cases coded
  have before := grows.heap.scalar? ready.wellFormed (Heap.scalar?_eq_some.1 found) other
  exact roomy r code (Heap.code?_eq_some.2 ⟨s, Heap.scalar?_eq_some.2 before, coded⟩)

end Machine

/-! ## Where a step leads -/

/-- The frame that an instruction leaves, before a call or a return is carried out. -/
def Effect.frame : Effect → Frame
  | .stay frame => frame
  | .call frame _ _ => frame
  | .back frame => frame
  | .fail frame _ => frame

section

variable {m : Machine}

theorem Frame.jump_home (frame : Frame) (pc : Nat) : (frame.jump pc).home = frame.home := by
  unfold Frame.jump
  split <;> rfl

theorem Frame.pushedOr_home (frame : Frame) (value : Option Ref) (error : RuntimeError) :
    (frame.pushedOr value error).frame.home = frame.home := by
  cases value <;> rfl

theorem Frame.popped_home (frame : Frame) {next : Ref → Frame → Effect}
    (keeps : ∀ value below, (next value below).frame.home = below.home) :
    (frame.popped next).frame.home = frame.home := by
  unfold Frame.popped
  split
  · rfl
  · exact keeps _ _

theorem Frame.lookedUp_home (frame : Frame) (op : Opcode) (binding : Ref → Option Ref)
    (unbound : String → RuntimeError) :
    (frame.lookedUp m op binding unbound).frame.home = frame.home := by
  refine frame.popped_home fun symbol below => ?_
  split
  · exact below.pushedOr_home _ _
  · rfl

/-- An instruction does not move its frame to another module. -/
theorem Opcode.effect_home (code : Code) (pc operand : Nat) (frame : Frame) (op : Opcode) :
    (op.effect m code pc operand frame).frame.home = frame.home := by
  cases op with
  | pushNull => rfl
  | pushConstant => exact frame.pushedOr_home _ _
  | loadLocal => exact frame.pushedOr_home _ _
  | storeLocal =>
      simp only [Opcode.effect]
      refine frame.popped_home fun value below => ?_
      split <;> rfl
  | loadModuleValue => exact frame.lookedUp_home _ _ _
  | loadModuleFunction => exact frame.lookedUp_home _ _ _
  | branch => exact frame.jump_home operand
  | branchIfNull =>
      simp only [Opcode.effect]
      refine frame.popped_home fun value below => ?_
      dsimp only [Effect.frame]
      split
      · exact below.jump_home operand
      · rfl
  | call =>
      simp only [Opcode.effect]
      split <;> rfl
  | ret => rfl
  | pop => exact frame.popped_home fun _ _ => rfl

theorem Frame.effect_home (frame : Frame) : (frame.effect m).frame.home = frame.home := by
  unfold Frame.effect
  split
  · split
    · rfl
    · exact Opcode.effect_home _ _ _ _ _
  · rfl

end

namespace Machine

section

variable {m m' : Machine}

/-- Compiled code is entered only where the limit allows one more frame. -/
theorem codeEffect_entered {depth : Nat} {code : Code} {args : List Ref} {heap : Heap}
    {frame : Frame} (entered : m.codeEffect depth code args = .entered heap frame) :
    depth < m.config.maxFrames ∧ frame.home = (m.withHeap heap).homeOf code := by
  unfold codeEffect at entered
  split at entered
  · split at entered
    · cases entered
    · split at entered
      · cases entered
      · next room =>
          cases entered
          exact ⟨Nat.lt_of_not_le room, rfl⟩
  · cases entered

theorem callEffect_entered {depth : Nat} {home : ModuleId} {callee : Ref} {args : List Ref}
    {heap : Heap} {frame : Frame}
    (entered : m.callEffect depth home callee args = .entered heap frame) :
    depth < m.config.maxFrames ∧ ∃ code, frame.home = (m.withHeap heap).homeOf code := by
  unfold callEffect at entered
  split at entered
  · unfold nativeEffect at entered
    split at entered
    · split at entered
      · cases entered
      · split at entered <;> cases entered
    · cases entered
  · obtain ⟨room, home⟩ := codeEffect_entered entered
    exact ⟨room, _, home⟩
  · cases entered
  · cases entered

/-- A call that goes on leaves the frames as they were, or one more that the limit allows. -/
theorem Housed.perform (housed : m.Housed) (ready : m.Ready) {effect : CallEffect}
    (grown : m.Grows (after (effect.perform m)))
    (entering : ∀ heap frame, effect = .entered heap frame →
      m.depth < m.config.maxFrames ∧ ∃ code, frame.home = (m.withHeap heap).homeOf code)
    (done : effect.perform m = .ok () m') :
    m'.Housed ∧ (m'.depth = m.depth ∨
      m'.depth = m.depth + 1 ∧ m.depth < m.config.maxFrames) := by
  rw [done] at grown
  cases effect with
  | returned heap output value =>
      cases done
      exact ⟨housed.grows ready grown housed.top housed.callers, Or.inl rfl⟩
  | entered heap frame =>
      cases done
      obtain ⟨room, code, home⟩ := entering heap frame rfl
      have within : (m.withHeap heap).Housed :=
        housed.grows ready ⟨grown.heap, rfl⟩ housed.top housed.callers
      refine ⟨housed.grows ready grown ?_ ?_, Or.inr ⟨?_, room⟩⟩
      · exact home ▸ within.homeOf code
      · intro caller member
        rcases Array.mem_push.1 member with below | rfl
        · exact housed.callers caller below
        · exact housed.top
      · simp [Machine.withFrame, Machine.depth, withHeap]
  | failed error heap frame => cases frame <;> cases done

theorem Housed.invoke (housed : m.Housed) (ready : m.Ready) (host : Host) {callee : Ref}
    {args : List Ref} (done : Machine.invoke host callee args m = .ok () m') :
    m'.Housed ∧ (m'.depth = m.depth ∨
      m'.depth = m.depth + 1 ∧ m.depth < m.config.maxFrames) := by
  have grown := invoke_grows host callee args ready
  rw [invoke_apply host callee args m ready.plain] at grown done
  exact housed.perform ready grown (fun _ _ entered => callEffect_entered entered) done

theorem Housed.callCode (housed : m.Housed) (ready : m.Ready) {code : Code} {args : List Ref}
    (done : Machine.callCode code args m = .ok () m') :
    m'.Housed ∧ (m'.depth = m.depth ∨
      m'.depth = m.depth + 1 ∧ m.depth < m.config.maxFrames) := by
  have grown := callCode_grows code args ready
  rw [callCode_apply] at grown done
  refine housed.perform ready grown (fun _ _ entered => ?_) done
  obtain ⟨room, home⟩ := codeEffect_entered entered
  exact ⟨room, code, home⟩

/-- A step that goes on leaves registered modules only, one frame fewer, as many or one more
    that the limit allows. -/
theorem Housed.step (housed : m.Housed) (ready : m.Ready) (host : Host)
    (done : Machine.step host m = .ok () m') :
    m'.Housed ∧ m.depth ≤ m'.depth + 1 ∧
      (m'.depth ≤ m.depth ∨ m'.depth ≤ m.config.maxFrames) := by
  have grown := step_grows host ready
  rw [done] at grown
  obtain ⟨journal, eq⟩ := step_apply host m
  rw [eq] at done
  have home : (m.top.effect m).frame.home < m.registry.size := by
    rw [Frame.effect_home]
    exact housed.top
  cases effect : m.top.effect m with
  | stay frame =>
      rw [effect] at done home
      cases done
      exact ⟨housed.grows ready grown home housed.callers,
        Nat.le_succ _, Or.inl (Nat.le_refl _)⟩
  | call frame callee args =>
      rw [effect] at done home
      have within : ((m.withJournal journal).withTop frame).Housed :=
        housed.grows ready (.of_same rfl) home housed.callers
      obtain ⟨housed', depth⟩ := within.invoke (ready.of_bare rfl) host done
      refine ⟨housed', ?_⟩
      have same : ((m.withJournal journal).withTop frame).depth = m.depth := rfl
      have limit : ((m.withJournal journal).withTop frame).config.maxFrames =
        m.config.maxFrames := rfl
      omega
  | back frame =>
      rw [effect] at done
      by_cases bottom : m.callers.size = 0
      · have none : m.callers = #[] := Array.eq_empty_of_size_eq_zero bottom
        simp [Effect.perform, giveBack, Machine.withTop, withJournal, none] at done
      · obtain ⟨below, caller, callers⟩ := Array.eq_push_of_size_ne_zero bottom
        have member : ∀ frame, frame ∈ below ∨ frame = caller → frame.home < m.registry.size :=
          fun frame either => housed.callers frame (by rw [callers]; exact Array.mem_push.2 either)
        rw [Effect.perform,
          @giveBack_push ((m.withJournal journal).withTop frame) below caller callers] at done
        cases stack : frame.stack with
        | nil => simp [Machine.withTop, stack] at done
        | cons value rest =>
            simp only [Machine.withTop, stack] at done
            cases done
            refine ⟨housed.grows ready grown (member caller (Or.inr rfl))
              (fun frame inside => member frame (Or.inl inside)), ?_, Or.inl ?_⟩
            · simp [Machine.depth, callers]
            · simp [Machine.depth, callers]
  | fail frame error =>
      rw [effect] at done
      cases done

end

/-! ## The watched machine does what the machine does -/

/-- In this machine the watched computation does exactly what the other one does. -/
def Faithful {α : Type} (m : Machine) (watched : Watched α) (action : Action RuntimeError α) :
    Prop :=
  watched m = lifted (action m)

section

variable {α β : Type} {m : Machine} {watched : Watched α} {action : Action RuntimeError α}

theorem faithful_plainly (action : Action RuntimeError α) : Faithful m (plainly action) action :=
  rfl

theorem Faithful.bind {next : α → Watched β} {rest : α → Action RuntimeError β}
    (first : Faithful m watched action)
    (second : ∀ a m', action m = .ok a m' → Faithful m' (next a) (rest a)) :
    Faithful m (watched >>= next) (action >>= rest) := by
  unfold Faithful at *
  rw [bind_apply, bind_apply, first]
  cases done : action m with
  | ok a m' => exact second a m' done
  | error e m' => rfl

theorem Faithful.demand {holds : Machine → Bool} (met : holds m = true)
    (faithful : Faithful m watched action) :
    Faithful m (Machine.demand holds >>= fun _ => watched) action := by
  unfold Faithful at *
  rw [bind_apply]
  simp only [Machine.demand, met, if_true]
  exact faithful

theorem Faithful.get {next : Machine → Watched β} {rest : Machine → Action RuntimeError β}
    (faithful : Faithful m (next m) (rest m)) : Faithful m (get >>= next) (get >>= rest) :=
  faithful

end

/-- A machine that the fence is around: the frame that waits for the result is there, and
    the limit is that of the machine or above it. -/
structure Fence.Around (fence : Fence) (m : Machine) : Prop where
  ready : m.Ready
  housed : m.Housed
  roomy : m.Roomy
  above : fence.base < m.depth
  limit : m.config.maxFrames ≤ fence.limit

namespace Fence

variable {fence : Fence} {m : Machine}

theorem enter_faithful (limit : m.config.maxFrames ≤ fence.limit) (frame : Frame) :
    Faithful m (fence.enter frame) (Machine.enter frame) := by
  unfold Faithful Fence.enter
  rw [bind_apply, plainly, enter_apply]
  by_cases full : m.config.maxFrames ≤ m.depth
  · simp only [full, if_true, lifted]
  · have room : (m.withFrame frame).depth ≤ fence.limit := by
      simp only [Machine.withFrame, Machine.depth, Array.size_push] at full ⊢
      omega
    simp only [full, if_false, lifted, demand, room, decide_true, if_true]

theorem giveBack_faithful (above : fence.base + 1 < m.depth) :
    Faithful m fence.giveBack Machine.giveBack :=
  .demand (decide_eq_true above) rfl

/-- An arity leaves room for every position that a native uses. -/
theorem positions_le {builtin : Builtin} {count : Nat}
    (accepted : builtin.arity.accepts count = true) : builtin.positions ≤ count := by
  cases builtin <;>
    simp only [Builtin.arity, Arity.accepts, beq_iff_eq, decide_eq_true_eq, Builtin.positions]
      at accepted ⊢ <;> omega

/-- A library callable leaves the frames as they are. -/
theorem run_depth {host : Host} {builtin : Builtin} {args : List Ref} {result : Option Ref}
    {m' : Machine} (ran : (Native.builtin builtin).run host args m = .ok result m') :
    m'.depth = m.depth := by
  obtain ⟨value, m₁, done, rest⟩ := bind_eq_ok ran
  cases rest
  rw [Builtin.run_apply, Builtin.Plan.perform] at done
  split at done
  · cases done
    rfl
  · cases done

theorem callNative_faithful (around : fence.Around m) (host : Host) (builtin : Builtin)
    (args : List Ref) :
    Faithful m (fence.callNative host (.builtin builtin) args)
      (Machine.callNative host (.builtin builtin) args) := by
  refine (faithful_plainly _).bind fun _ m₁ checked => ?_
  unfold checkArity at checked
  split at checked
  · next accepted =>
      cases checked
      refine Faithful.get ((enter_faithful around.limit _).bind fun _ m₂ entered => ?_)
      rw [enter_apply] at entered
      split at entered
      · cases entered
      · cases entered
        refine .demand (decide_eq_true (positions_le accepted)) ?_
        refine (faithful_plainly _).bind fun result m₃ ran => ?_
        have above : fence.base + 1 < m₃.depth := by
          have deeper := run_depth ran
          have below := around.above
          simp only [Machine.withFrame, Machine.depth, Array.size_push] at deeper below ⊢
          omega
        cases result with
        | some value =>
            exact (show Faithful m₃ (modify _) (modify _) from rfl).bind fun _ m₄ pushed => by
              cases pushed
              exact giveBack_faithful above
        | none => exact giveBack_faithful above
  · cases checked

theorem callCode_faithful (around : fence.Around m) {code : Code}
    (room : code.slots ≤ maxVariables) (args : List Ref) :
    Faithful m (fence.callCode code args) (Machine.callCode code args) := by
  refine (faithful_plainly _).bind fun _ m₁ checked => ?_
  unfold checkArity at checked
  split at checked
  · next accepted =>
      cases checked
      have enough : (!code.takesRest || decide (code.params ≤ args.length)) = true := by
        unfold Code.arity at accepted
        cases rest : code.takesRest with
        | false => rfl
        | true =>
            rw [rest] at accepted
            exact accepted
      refine .demand enough ((faithful_plainly _).bind fun gathered m₂ made => ?_)
      refine .demand (decide_eq_true room) (Faithful.get (enter_faithful ?_ _))
      rw [gatherRest_apply] at made
      split at made
      · cases made
        exact around.limit
      · cases made
  · cases checked

theorem invoke_faithful (around : fence.Around m) (host : Host) (callee : Ref) (args : List Ref) :
    Faithful m (fence.invoke host callee args) (Machine.invoke host callee args) := by
  refine .demand around.housed.namesModules (Faithful.get ?_)
  cases found : m.heap.scalar? callee with
  | none => rfl
  | some scalar =>
      cases scalar with
      | native native =>
          cases native with
          | builtin builtin => exact callNative_faithful around host builtin args
          | probe probe => exact absurd found (around.ready.plain callee probe)
      | function code =>
          have room := around.roomy callee code (Heap.code?_eq_some.2 ⟨_, found, rfl⟩)
          exact callCode_faithful around room args
      | expander code => rfl
      | integer value => rfl
      | symbol name => rfl
      | moduleCell id => rfl

/-- The fence does not look at the work stack, the offset and the journal. -/
theorem Around.withTop (around : fence.Around m) (journal : Journal) (frame : Frame)
    (home : frame.home = m.top.home) :
    fence.Around ((m.withJournal journal).withTop frame) :=
  ⟨around.ready.of_bare rfl,
    ⟨home ▸ around.housed.top, around.housed.callers, around.housed.user, around.housed.cells⟩,
    around.roomy, around.above, around.limit⟩

/-- A call finds as many arguments on the work stack as it takes. -/
theorem takeArgs_length {count : Nat} {stack found args rest : List Ref}
    (taken : takeArgs count stack found = some (args, rest)) : count ≤ stack.length := by
  induction count generalizing stack found with
  | zero => exact Nat.zero_le _
  | succ count ih =>
      cases stack with
      | nil => cases taken
      | cons value stack => exact Nat.succ_le_succ (ih taken)

theorem callOnStack_faithful (around : fence.Around m) (host : Host) (count : Nat) :
    Faithful m (fence.callOnStack host count) (Machine.callOnStack host count) := by
  unfold Faithful Fence.callOnStack Machine.callOnStack
  simp only [bind_apply, get_apply]
  cases taken : takeArgs count m.top.stack [] with
  | none => rfl
  | some split =>
      rcases split with ⟨args, _ | ⟨callee, rest⟩⟩
      · rfl
      · have enough := takeArgs_length taken
        simp only [bind_apply, modify_apply, demand, enough, decide_true, if_true]
        exact invoke_faithful (around.withTop m.journal { m.top with stack := rest } rfl) host callee
          args

theorem execute_faithful (around : fence.Around m) (above : fence.base + 1 < m.depth) (host : Host)
    (code : Code) (pc : Nat) (op : Opcode) (operand : Nat) :
    Faithful m (fence.execute host code pc op operand)
      (Machine.execute host code pc op operand) := by
  have home : decide (m.top.home < m.registry.size) = true := decide_eq_true around.housed.top
  cases op with
  | loadModuleValue => exact .demand home rfl
  | loadModuleFunction => exact .demand home rfl
  | call => exact callOnStack_faithful around host operand
  | ret => exact giveBack_faithful above
  | _ => rfl

theorem step_faithful (around : fence.Around m) (above : fence.base + 1 < m.depth) (host : Host) :
    Faithful m (fence.step host) (Machine.step host) := by
  refine .demand around.housed.namesModules ?_
  unfold Faithful Machine.step
  simp only [bind_apply, get_apply]
  cases doing : m.top.activity with
  | native name => rfl
  | waiting => rfl
  | running code pc =>
      dsimp only
      cases code.fetch pc with
      | error e => rfl
      | ok instruction =>
          rcases instruction with ⟨op, operand⟩
          obtain ⟨journal, noted⟩ := noteIf_eq m m.config.trace .trace fun m =>
            m.traceLine code pc op operand
          simp only [bind_apply, modify_apply, noted]
          have moved : ((m.withJournal journal).jump (pc + 1 + op.width)) =
              (m.withJournal journal).withTop
                { m.top with activity := .running code (pc + 1 + op.width) } := by
            simp only [jump, withJournal, doing]
            rfl
          rw [moved]
          exact execute_faithful (around.withTop journal
            { m.top with activity := .running code (pc + 1 + op.width) } rfl) above host code pc op
            operand

/-- A step that goes on above the fence leaves the fence around the machine. -/
theorem Around.step {m' : Machine} (around : fence.Around m) (above : fence.base + 1 < m.depth)
    {host : Host} (done : Machine.step host m = .ok () m') : fence.Around m' := by
  have grown : m.Grows m' := by
    have all := step_grows host around.ready
    rwa [done] at all
  obtain ⟨housed, depth, _⟩ := around.housed.step around.ready host done
  exact ⟨grown.ready around.ready, housed, around.roomy.grows around.ready grown, by omega,
    by rw [grown.config]; exact around.limit⟩

theorem run_faithful (around : fence.Around m) (host : Host) (fuel : Nat) :
    Faithful m (fence.run host fuel) (Machine.run host (fence.base + 1) fuel) := by
  induction fuel generalizing m with
  | zero => rfl
  | succ fuel ih =>
      unfold Faithful Fence.run Machine.run
      simp only [bind_apply, get_apply]
      by_cases above : fence.base + 1 < m.depth
      · simp only [above, if_true, bind_apply]
        rw [step_faithful around above host]
        cases done : Machine.step host m with
        | error e m' => rfl
        | ok _ m' => exact ih (around.step above done)
      · simp only [above, if_false]
        rfl

end Fence

/-! ## Calls from outside -/

section

variable {m : Machine}

/-- A call from outside, watched by the fence that is put up when it begins. -/
theorem watchedCall_faithful (host : Host) (limit fuel : Nat)
    {watched : Fence → Watched Unit} {enterCall : Action RuntimeError Unit} (ready : m.Ready)
    (housed : m.Housed) (roomy : m.Roomy) (within : m.config.maxFrames ≤ limit)
    (faithful : ∀ (fence : Fence) (m : Machine), fence.Around m →
      Faithful m (watched fence) enterCall)
    (enters : ∀ m m' : Machine, m.Ready → m.Housed → enterCall m = .ok () m' →
      m'.Housed ∧ (m'.depth = m.depth ∨
        m'.depth = m.depth + 1 ∧ m.depth < m.config.maxFrames))
    (above : ∀ (m : Machine) (lower : Array Frame), m.Ready → m.Above lower →
      (after (enterCall m)).Above lower)
    (grows : ∀ m : Machine, m.Ready → m.Grows (after (enterCall m))) :
    Faithful m (watchedCall host limit fuel watched) (callOut host fuel enterCall) := by
  have outcome : (do
      Fence.enter ⟨m.depth, limit⟩ (.waiting m.top.home)
      watched ⟨m.depth, limit⟩
      Fence.run ⟨m.depth, limit⟩ host fuel : Watched Unit) m =
      lifted (driven host fuel enterCall m) := by
    refine (Fence.enter_faithful within _).bind fun _ m₁ entered => ?_
    have around₁ : Fence.Around ⟨m.depth, limit⟩ m₁ := by
      rw [enter_apply] at entered
      split at entered
      · cases entered
      · cases entered
        refine ⟨ready.of_bare rfl, ⟨housed.top, fun frame member => ?_, housed.user, housed.cells⟩,
          roomy, ?_, within⟩
        · rcases Array.mem_push.1 member with below | rfl
          · exact housed.callers frame below
          · exact housed.top
        · simp [Machine.withFrame, Machine.depth]
    refine (faithful _ m₁ around₁).bind fun _ m₂ called => ?_
    have grown : m₁.Grows m₂ := by
      have all := grows m₁ around₁.ready
      rwa [called] at all
    obtain ⟨housed₂, depth⟩ := enters m₁ m₂ around₁.ready around₁.housed called
    have higher := around₁.above
    refine Fence.run_faithful ⟨grown.ready around₁.ready, housed₂,
      around₁.roomy.grows around₁.ready grown, ?_, ?_⟩ host fuel
    · omega
    · rw [grown.config]
      exact around₁.limit
  have kept : m.depth ≤ (after (driven host fuel enterCall m)).depth := by
    rcases driven_above host fuel above grows ready with same | ⟨upper, callers⟩
    · exact Nat.le_of_eq (congrArg Machine.depth same.symm)
    · simp only [Machine.depth, callers, Array.size_append, Array.size_push]
      omega
  unfold Faithful watchedCall
  rw [callOut_apply]
  dsimp only
  rw [outcome]
  cases ran : driven host fuel enterCall m with
  | error e m' =>
      rw [ran] at kept
      simp only [lifted, after_error] at kept ⊢
      rw [if_pos kept]
  | ok _ m' =>
      rw [ran] at kept
      simp only [lifted, after_ok] at kept ⊢
      rw [if_pos kept]
      rcases m'.frameAt? m.depth with _ | ⟨_ | ⟨value, rest⟩, locals, activity, home⟩ <;> rfl

theorem watchedApply_faithful {limit : Nat} (ready : m.Ready) (housed : m.Housed)
    (roomy : m.Roomy) (within : m.config.maxFrames ≤ limit) (fuel : Nat) (callee : Ref)
    (args : List Ref) :
    Faithful m (watchedApply limit fuel callee args) (apply fuel callee args) :=
  watchedCall_faithful (serve fuel) limit fuel ready housed roomy within
    (fun _ _ around => Fence.invoke_faithful around (serve fuel) callee args)
    (fun _ _ ready housed done => housed.invoke ready (serve fuel) done)
    (fun _ _ ready above => above.invoke (serve fuel) callee args ready)
    fun _ ready => invoke_grows (serve fuel) callee args ready

/-- Macros run under the same guard as functions. -/
theorem watchedExpand_faithful {limit : Nat} (ready : m.Ready) (housed : m.Housed)
    (roomy : m.Roomy) (within : m.config.maxFrames ≤ limit) (fuel : Nat) {code : Code}
    (room : code.slots ≤ maxVariables) (args : List Ref) :
    Faithful m (watchedExpand limit fuel code args) (expandWith (serve fuel) fuel code args) :=
  watchedCall_faithful (serve fuel) limit fuel ready housed roomy within
    (fun _ _ around => Fence.callCode_faithful around room args)
    (fun _ _ ready housed done => housed.callCode ready done)
    (fun _ _ _ above => above.callCode code args) fun _ ready => callCode_grows code args ready

theorem lifted_ne_trapped {α : Type} (result : EStateM.Result (Stop RuntimeError) Machine α)
    (m : Machine) : lifted result ≠ .error .trapped m := by
  cases result <;> simp [lifted]

/-- A call from outside is contained: the watched machine does not trap and does what the
    machine does, which leaves every frame, the modules, the symbols and the settings as they
    were, and the contents of every cell that was in use. -/
structure Contained (m : Machine) (watched : EStateM.Result Halt Machine Ref)
    (result : EStateM.Result (Stop RuntimeError) Machine Ref) : Prop where
  faithful : watched = lifted result
  safe : ∀ halted, watched ≠ .error .trapped halted
  frames : (after result).frames = m.frames
  registry : (after result).registry = m.registry
  symbols : (after result).store.symbols = m.store.symbols
  config : (after result).config = m.config
  cells : ∀ r, m.heap.Live r → (after result).heap.cell? r = m.heap.cell? r

theorem Faithful.contained {watched : Watched Ref} {action : Action RuntimeError Ref}
    (faithful : Faithful m watched action) (ready : m.Ready)
    (frames : m.SameFrames (after (action m))) (grows : m.Grows (after (action m))) :
    m.Contained (watched m) (action m) where
  faithful := faithful
  safe := fun halted trapped => lifted_ne_trapped _ halted (faithful.symm.trans trapped)
  frames := by rw [Machine.frames, frames.callers, frames.top, ← Machine.frames]
  registry := grows.registry
  symbols := grows.symbols
  config := grows.config
  cells := grows.keeps ready

/-- Whatever the callee, the arguments and the words of the code that is called: a call from
    outside never leaves the bounds of an access, never takes a frame from below the call
    and never has more frames than the limit, or than there were before. It leaves every
    frame, the modules, the symbols and the settings as they were, and every cell that was
    in use keeps its contents. The same holds of the expansion of any macro. Only the
    numbers of variables are bounded, by the room that a frame has. -/
theorem arbitrary_code_is_contained (m : Machine) (sound : m.heap.WellFormed)
    (plain : OnlyBuiltins m.heap) (housed : m.Housed) (roomy : m.Roomy) (fuel : Nat)
    (args : List Ref) :
    let limit := max m.config.maxFrames m.depth
    (∀ callee, m.Contained (watchedApply limit fuel callee args m) (apply fuel callee args m)) ∧
    ∀ code : Code, code.slots ≤ maxVariables →
      m.Contained (watchedExpand limit fuel code args m)
        (expandWith (serve fuel) fuel code args m) := by
  intro limit
  have ready : m.Ready := ⟨sound, plain⟩
  have within : m.config.maxFrames ≤ limit := Nat.le_max_left _ _
  refine ⟨fun callee => ?_, fun code room => ?_⟩
  · exact (watchedApply_faithful ready housed roomy within fuel callee args).contained ready
      (applyWith_frames (serve fuel) fuel callee args ready)
      (applyWith_grows (serve fuel) fuel callee args ready)
  · exact (watchedExpand_faithful ready housed roomy within fuel room args).contained ready
      (expandWith_frames (serve fuel) fuel code args ready)
      (expandWith_grows (serve fuel) fuel code args ready)

end

/-! ## Code that calls itself -/

/-- A function that calls itself without end, with an operand left over behind the call and a
    given number of variables. -/
def selfCall (slots : Nat) : Code := ⟨.null, 0, false, slots, #[⟨1⟩], #[1, 0, 8, 0, 8], .null⟩

/-- A machine with one module and one cell, the function that calls itself. -/
def selfCalling (slots : Nat) : Machine :=
  { blank { maxFrames := 8 } none with
    store := .ofHeap
      { Heap.ofArenaSize 1 with cells := #[⟨.scalar (.function (selfCall slots)), false⟩] }
    registry := ⟨#[⟨.null, .null, [], []⟩], []⟩ }

section

variable {slots : Nat}

theorem selfCalling_cell {r : Ref} {s : Scalar}
    (found : (selfCalling slots).heap.scalar? r = some s) : s = .function (selfCall slots) := by
  rcases r with ⟨_ | _ | index⟩
  · cases found
  · exact (Option.some.inj found).symm
  · cases found

theorem selfCalling_wellFormed : (selfCalling slots).heap.WellFormed where
  arenas := by simp [selfCalling, Store.ofHeap, Heap.ofArenaSize]
  free := by
    refine ⟨[], .nil, List.nodup_nil, ?_, rfl⟩
    intro slot
    rcases slot with _ | slot
    · simp [Heap.FreeAt, selfCalling, Store.ofHeap, Cell.isFree]
    · simp [Heap.FreeAt, selfCalling, Store.ofHeap]

theorem selfCalling_plain : OnlyBuiltins (selfCalling slots).heap := fun r probe found => by
  cases selfCalling_cell found

theorem selfCalling_housed : (selfCalling slots).Housed where
  top := by simp [selfCalling, blank, Frame.waiting, Registry.size]
  callers := by simp [selfCalling, blank]
  user := by simp [selfCalling, blank, Registry.size]
  cells := by
    intro r id found
    cases selfCalling_cell found

theorem selfCalling_roomy (room : slots ≤ maxVariables) : (selfCalling slots).Roomy := by
  intro r code held
  obtain ⟨s, found, coded⟩ := Heap.code?_eq_some.1 held
  cases selfCalling_cell found
  cases coded
  exact room

end

/-- The frames run out, which ends the call and the expansion and leaves the bottom frame as it
    was. -/
theorem arbitrary_code_is_contained_sample :
    let m := selfCalling 0
    m.heap.WellFormed ∧ OnlyBuiltins m.heap ∧ m.Housed ∧ m.Roomy ∧
    (selfCall 0).slots ≤ maxVariables ∧
    (match apply 100 ⟨1⟩ [] m with
      | .ok _ _ => none
      | .error e _ => some e) = some (.failed (.stackOverflow 8)) ∧
    m.Contained (watchedApply 8 100 ⟨1⟩ [] m) (apply 100 ⟨1⟩ [] m) ∧
    (match expandWith (serve 100) 100 (selfCall 0) [] m with
      | .ok _ _ => none
      | .error e _ => some e) = some (.failed (.stackOverflow 8)) ∧
    m.Contained (watchedExpand 8 100 (selfCall 0) [] m)
      (expandWith (serve 100) 100 (selfCall 0) [] m) := by
  intro m
  have roomy : m.Roomy := selfCalling_roomy (Nat.zero_le _)
  have room : (selfCall 0).slots ≤ maxVariables := Nat.zero_le _
  obtain ⟨called, expanded⟩ := arbitrary_code_is_contained m selfCalling_wellFormed
    selfCalling_plain selfCalling_housed roomy 100 []
  exact ⟨selfCalling_wellFormed, selfCalling_plain, selfCalling_housed, roomy, room,
    by decide +kernel, called ⟨1⟩, by decide +kernel, expanded (selfCall 0) room⟩

/-- A function with one variable too many for a frame is not contained: the call ends in a trap
    that leaves the frame waiting for its result on the stack. -/
theorem too_many_variables_trap :
    let m := selfCalling (maxVariables + 1)
    m.heap.WellFormed ∧ OnlyBuiltins m.heap ∧ m.Housed ∧ m.depth = 1 ∧
    (match watchedApply (max m.config.maxFrames m.depth) 1 ⟨1⟩ [] m with
      | .error .trapped halted => some halted.depth
      | _ => none) = some 2 ∧
    ¬ m.Contained (watchedApply (max m.config.maxFrames m.depth) 1 ⟨1⟩ [] m)
      (apply 1 ⟨1⟩ [] m) := by
  intro m
  have trapped : (match watchedApply (max m.config.maxFrames m.depth) 1 ⟨1⟩ [] m with
      | .error .trapped halted => some halted.depth
      | _ => none) = some 2 := by decide +kernel
  refine ⟨selfCalling_wellFormed, selfCalling_plain, selfCalling_housed, rfl, trapped,
    fun contained => ?_⟩
  split at trapped
  · next halted ended => exact contained.safe halted ended
  · cases trapped

end Machine

end LispMachine
