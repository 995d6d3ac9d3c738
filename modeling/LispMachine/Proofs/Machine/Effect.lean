import LispMachine.Machine.Step

/-!
# What a step does

A step is a function of the top frame, the heap and the modules: it changes the
top frame, begins a call, returns, or fails. A call of a library callable or of
compiled code is a function of the machine without its frames, of their number
and of the home of the top frame. Both are written down here once, and later
proofs go by these cases instead of the monadic code.
-/

namespace LispMachine

/-! ## Actions applied to a machine -/

section Actions

variable {ε σ α β : Type}

@[simp] theorem bind_apply (x : EStateM ε σ α) (f : α → EStateM ε σ β) (s : σ) :
    (x >>= f) s =
      match x s with
      | .ok a s => f a s
      | .error e s => .error e s := rfl

@[simp] theorem pure_apply (a : α) (s : σ) : (pure a : EStateM ε σ α) s = .ok a s := rfl

@[simp] theorem get_apply (s : σ) : (get : EStateM ε σ σ) s = .ok s s := rfl

@[simp] theorem modify_apply (f : σ → σ) (s : σ) :
    (modify f : EStateM ε σ PUnit) s = .ok ⟨⟩ (f s) := rfl

@[simp] theorem throw_apply (e : ε) (s : σ) : (throw e : EStateM ε σ α) s = .error e s := rfl

/-- A sequence succeeds when both of its parts do. -/
theorem bind_eq_ok {x : EStateM ε σ α} {f : α → EStateM ε σ β} {s s'' : σ} {b : β}
    (done : (x >>= f) s = .ok b s'') : ∃ a s', x s = .ok a s' ∧ f a s' = .ok b s'' := by
  rw [bind_apply] at done
  cases first : x s with
  | ok a s' =>
      rw [first] at done
      exact ⟨a, s', rfl, done⟩
  | error e s' =>
      rw [first] at done
      cases done

end Actions

namespace Store

theorem onHeap_apply {ε α : Type} (action : EStateM ε Heap α) (s : Store) :
    onHeap action s =
      match action s.heap with
      | .ok value heap => .ok value ⟨heap, s.symbols⟩
      | .error e heap => .error e ⟨heap, s.symbols⟩ := rfl

theorem intern_apply (name : String) (s : Store) :
    intern name s =
      match s.lookup name with
      | some cell => .ok cell s
      | none =>
          match Heap.alloc (.scalar (.symbol name)) s.heap with
          | .ok cell heap => .ok cell ⟨heap, Assoc.insert name cell s.symbols⟩
          | .error e heap => .error e ⟨heap, s.symbols⟩ := by
  simp only [intern, bind_apply, get_apply]
  cases s.lookup name with
  | some cell => rfl
  | none =>
      simp only [bind_apply, onHeap_apply, Heap.allocScalar]
      cases Heap.alloc (.scalar (.symbol name)) s.heap <;> rfl

end Store

namespace Machine

/-- The machine with another heap. -/
def withHeap (m : Machine) (heap : Heap) : Machine :=
  { m with store := { m.store with heap := heap } }

/-- The machine without frames and journal. -/
def bare (m : Machine) : Machine :=
  { m with top := .waiting 0, callers := #[], journal := .ofLevel none }

@[simp] theorem withHeap_heap (m : Machine) (heap : Heap) : (m.withHeap heap).heap = heap := rfl

@[simp] theorem fail_apply {ε α : Type} (error : ε) (m : Machine) :
    (fail error : Action ε α) m = .error (.failed error) m := rfl

theorem onHeap_apply {ε α : Type} (f : HeapError → ε) (action : EStateM HeapError Heap α)
    (m : Machine) :
    onHeap f action m =
      match action m.heap with
      | .ok value heap => .ok value (m.withHeap heap)
      | .error e heap => .error (f e) (m.withHeap heap) := by
  rcases m with ⟨⟨heap, symbols⟩, registry, top, callers, config, user, truth, defined, output,
    journal⟩
  simp only [onHeap, onStore, Store.onHeap]
  cases action heap <;> rfl

end Machine

/-! ## Library callables -/

/-- What a library callable does. -/
inductive Builtin.Plan where
  | fail (error : RuntimeError)
  | give (value : Ref)
  | makeInteger (value : Int64)
  | makePair (first second : Ref)
  | makeList (items : List Ref)
  | print (text : String) (value : Ref)

namespace Builtin

/-- What arithmetic does. -/
def arithmeticPlan (m : Machine) (builtin : Builtin) (compute : List Int64 → Option Int64)
    (args : List Ref) : Plan :=
  match integers m builtin.name args with
  | .error e => .fail e
  | .ok values =>
      match compute values with
      | none => .fail (.integerOverflow builtin.name)
      | some value => .makeInteger value

/-- What a comparison does. -/
def comparisonPlan (m : Machine) (builtin : Builtin) (holds : Int64 → Int64 → Bool)
    (args : List Ref) : Plan :=
  match integers m builtin.name args with
  | .error e => .fail e
  | .ok values => .give (m.boolean (holds (values.getD 0 0) (values.getD 1 0)))

/-- What taking one half of a pair does. -/
def halfPlan (m : Machine) (builtin : Builtin) (part : Ref × Ref → Ref) (list : Ref) : Plan :=
  match m.heap.pair? list with
  | some pair => .give (part pair)
  | none => if list.isNull then .give list else .fail (m.typeError builtin.name "list" list)

/-- What a library callable does in a machine. -/
def plan (builtin : Builtin) (m : Machine) (args : List Ref) : Plan :=
  match builtin with
  | add => arithmeticPlan m add sum args
  | subtract => arithmeticPlan m subtract difference args
  | multiply => arithmeticPlan m multiply product args
  | less => comparisonPlan m less (fun a b => a.toInt < b.toInt) args
  | equal => comparisonPlan m equal (fun a b => a == b) args
  | same => .give (m.boolean (isSame m.heap (argument args 0) (argument args 1)))
  | car => halfPlan m car Prod.fst (argument args 0)
  | cdr => halfPlan m cdr Prod.snd (argument args 0)
  | cons => .makePair (argument args 0) (argument args 1)
  | list => .makeList args
  | isNull => .give (m.boolean (argument args 0).isNull)
  | print => .print (m.display (argument args 0)) (argument args 0)

/-- A heap operation whose failure ends a run. -/
def orHeapError (action : EStateM HeapError Heap Ref) : EStateM RuntimeError Heap Ref := fun heap =>
  match action heap with
  | .ok value heap => .ok value heap
  | .error e heap => .error (.heap e) heap

/-- The result of a plan and what it allocates. -/
def Plan.onHeap : Plan → EStateM RuntimeError Heap Ref
  | .fail error => throw error
  | .give value => pure value
  | .makeInteger value => orHeapError (Heap.integer value)
  | .makePair first second => orHeapError (Heap.cons first second)
  | .makeList items => orHeapError (Heap.list items)
  | .print _ value => pure value

/-- The text printed so far, after a plan. -/
def Plan.output (plan : Plan) (output : String) : String :=
  match plan with
  | .print text _ => (output ++ text).push '\n'
  | _ => output

/-- Carries out a plan. -/
def Plan.perform (plan : Plan) (m : Machine) : EStateM.Result (Stop RuntimeError) Machine Ref :=
  match plan.onHeap m.heap with
  | .ok value heap => .ok value { m.withHeap heap with output := plan.output m.output }
  | .error e heap => .error (.failed e) (m.withHeap heap)

theorem arithmetic_apply (builtin : Builtin) (compute : List Int64 → Option Int64)
    (args : List Ref) (m : Machine) :
    arithmetic builtin compute args m = (arithmeticPlan m builtin compute args).perform m := by
  simp only [arithmetic, arithmeticPlan, bind_apply, get_apply]
  cases integers m builtin.name args with
  | error e => rfl
  | ok values =>
      dsimp only
      cases compute values with
      | none => rfl
      | some value =>
          simp only [Plan.perform, Plan.onHeap, orHeapError, Machine.onHeap_apply]
          cases Heap.integer value m.heap <;> rfl

theorem comparison_apply (builtin : Builtin) (holds : Int64 → Int64 → Bool) (args : List Ref)
    (m : Machine) :
    comparison builtin holds args m = (comparisonPlan m builtin holds args).perform m := by
  simp only [comparison, comparisonPlan, bind_apply, get_apply]
  cases integers m builtin.name args <;> rfl

theorem half_apply (builtin : Builtin) (part : Ref × Ref → Ref) (list : Ref) (m : Machine) :
    half builtin part list m = (halfPlan m builtin part list).perform m := by
  simp only [half, halfPlan, bind_apply, get_apply]
  cases m.heap.pair? list with
  | some pair => rfl
  | none => cases list.isNull <;> rfl

theorem run_apply (builtin : Builtin) (args : List Ref) (m : Machine) :
    builtin.run args m = (builtin.plan m args).perform m := by
  cases builtin with
  | add => exact arithmetic_apply ..
  | subtract => exact arithmetic_apply ..
  | multiply => exact arithmetic_apply ..
  | less => simp only [run, plan, comparison_apply]
  | equal => exact comparison_apply ..
  | same => rfl
  | car => exact half_apply ..
  | cdr => exact half_apply ..
  | cons =>
      simp only [run, plan, Plan.perform, Plan.onHeap, orHeapError, Machine.onHeap_apply]
      cases Heap.cons (argument args 0) (argument args 1) m.heap <;> rfl
  | list =>
      simp only [run, plan, Plan.perform, Plan.onHeap, orHeapError, Machine.onHeap_apply]
      cases Heap.list args m.heap <;> rfl
  | isNull => rfl
  | print => rfl

theorem integers_bare (m : Machine) (function : String) (args : List Ref) :
    integers m.bare function args = integers m function args := by
  induction args with
  | nil => rfl
  | cons r rest ih =>
      simp only [integers, ih]
      rfl

theorem plan_bare (builtin : Builtin) (m : Machine) (args : List Ref) :
    builtin.plan m.bare args = builtin.plan m args := by
  cases builtin <;> simp only [plan, arithmeticPlan, comparisonPlan, integers_bare] <;> rfl

end Builtin

/-! ## Calls -/

/-- What a call does: it is back with a value, it has entered a frame, or it has
    failed, perhaps inside the frame of a native. -/
inductive CallEffect where
  | returned (heap : Heap) (output : String) (value : Ref)
  | entered (heap : Heap) (frame : Frame)
  | failed (error : RuntimeError) (heap : Heap) (frame : Option Frame)

namespace Machine

/-- The machine with one more frame. -/
def withFrame (m : Machine) (frame : Frame) : Machine :=
  { m with callers := m.callers.push m.top, top := frame }

theorem enter_apply (frame : Frame) (m : Machine) :
    enter frame m =
      if m.config.maxFrames ≤ m.depth then .error (.failed (.stackOverflow m.config.maxFrames)) m
      else .ok () (m.withFrame frame) := rfl

/-- What calling a library callable does, with `depth` frames on the stack and the
    top one at home in `home`. -/
def nativeEffect (m : Machine) (depth : Nat) (home : ModuleId) (builtin : Builtin)
    (args : List Ref) : CallEffect :=
  if builtin.arity.accepts args.length then
    if m.config.maxFrames ≤ depth then
      .failed (.stackOverflow m.config.maxFrames) m.heap none
    else
      match (builtin.plan m args).onHeap m.heap with
      | .ok value heap => .returned heap ((builtin.plan m args).output m.output) value
      | .error e heap => .failed e heap (some (.ofNative (.builtin builtin) home args))
  else .failed (.wrongArity builtin.name builtin.arity args.length) m.heap none

/-- The variables that receive the arguments of a call, with the list of the rest
    parameter. -/
def gathered (code : Code) (args : List Ref) : EStateM HeapError Heap (List Ref) := fun heap =>
  if code.takesRest then
    match Heap.list (args.drop code.params) heap with
    | .ok rest heap => .ok (args.take code.params ++ [rest]) heap
    | .error e heap => .error e heap
  else .ok args heap

/-- What calling compiled code does, with `depth` frames on the stack. -/
def codeEffect (m : Machine) (depth : Nat) (code : Code) (args : List Ref) : CallEffect :=
  if code.arity.accepts args.length then
    match gathered code args m.heap with
    | .error e heap => .failed (.heap e) heap none
    | .ok args heap =>
        if m.config.maxFrames ≤ depth then .failed (.stackOverflow m.config.maxFrames) heap none
        else
          .entered heap (.ofCode code ((m.withHeap heap).homeOf code) (variablesOf code args))
  else .failed (.wrongArity (m.codeName code) code.arity args.length) m.heap none

/-- What calling a value does; probes, which re-enter the machine, are left out. -/
def callEffect (m : Machine) (depth : Nat) (home : ModuleId) (callee : Ref) (args : List Ref) :
    CallEffect :=
  match m.heap.scalar? callee with
  | some (.native (.builtin builtin)) => m.nativeEffect depth home builtin args
  | some (.function code) => m.codeEffect depth code args
  | some (.expander code) => .failed (.macroCall (m.codeName code)) m.heap none
  | _ => .failed (.notCallable (m.display callee)) m.heap none

end Machine

/-- Carries out a call effect. -/
def CallEffect.perform (effect : CallEffect) (m : Machine) :
    EStateM.Result (Stop RuntimeError) Machine Unit :=
  match effect with
  | .returned heap output value => .ok () (({ m.withHeap heap with output := output }).push value)
  | .entered heap frame => .ok () ((m.withHeap heap).withFrame frame)
  | .failed error heap none => .error (.failed error) (m.withHeap heap)
  | .failed error heap (some frame) => .error (.failed error) ((m.withHeap heap).withFrame frame)

namespace Machine

theorem giveBack_withFrame (m : Machine) (frame : Frame) (value : Ref) (rest : List Ref)
    (full : frame.stack = value :: rest) : giveBack (m.withFrame frame) = .ok () (m.push value) := by
  simp [giveBack, withFrame, full, push]

theorem callNative_apply (host : Host) (builtin : Builtin) (args : List Ref) (m : Machine) :
    callNative host (.builtin builtin) args m =
      (m.nativeEffect m.depth m.top.home builtin args).perform m := by
  have arity : (Native.builtin builtin).arity = builtin.arity := rfl
  simp only [callNative, bind_apply, checkArity, nativeEffect, arity, get_apply, enter_apply]
  cases builtin.arity.accepts args.length with
  | false => rfl
  | true =>
      by_cases full : m.config.maxFrames ≤ m.depth
      · simp [full, CallEffect.perform, withHeap]
      · have plan_eq := Builtin.plan_bare builtin
          (m.withFrame (.ofNative (.builtin builtin) m.top.home args)) args
        rw [show (m.withFrame (.ofNative (.builtin builtin) m.top.home args)).bare = m.bare from rfl,
          Builtin.plan_bare] at plan_eq
        simp only [full, if_true, if_false, Native.run, bind_apply, Builtin.run_apply, ← plan_eq,
          Builtin.Plan.perform]
        rw [show (m.withFrame (.ofNative (.builtin builtin) m.top.home args)).heap = m.heap from rfl]
        cases (builtin.plan m args).onHeap m.heap with
        | error e heap => rfl
        | ok value heap =>
            exact giveBack_withFrame
              { m.withHeap heap with output := (builtin.plan m args).output m.output }
              ⟨value :: args.reverse, #[], .native builtin.name, m.top.home⟩ value _ rfl

theorem gatherRest_apply (code : Code) (args : List Ref) (m : Machine) :
    gatherRest code args m =
      match gathered code args m.heap with
      | .ok args heap => .ok args (m.withHeap heap)
      | .error e heap => .error (.failed (.heap e)) (m.withHeap heap) := by
  simp only [gatherRest, gathered]
  cases code.takesRest with
  | false => rfl
  | true =>
      simp only [if_true, bind_apply, onHeap_apply]
      cases Heap.list (args.drop code.params) m.heap <;> rfl

theorem callCode_apply (code : Code) (args : List Ref) (m : Machine) :
    callCode code args m = (m.codeEffect m.depth code args).perform m := by
  simp only [callCode, bind_apply, checkArity, codeEffect, gatherRest_apply]
  cases code.arity.accepts args.length with
  | false => rfl
  | true =>
      simp only [if_true]
      cases gathered code args m.heap with
      | error e heap => rfl
      | ok args heap =>
          simp only [get_apply, enter_apply]
          by_cases full : m.config.maxFrames ≤ m.depth
          · have same : (m.withHeap heap).config.maxFrames ≤ (m.withHeap heap).depth := full
            simp only [full, same, if_true]
            rfl
          · have same : ¬ (m.withHeap heap).config.maxFrames ≤ (m.withHeap heap).depth := full
            simp only [full, same, if_false]
            rfl

/-- No cell holds a callable that re-enters the machine. -/
def OnlyBuiltins (heap : Heap) : Prop :=
  ∀ r probe, heap.scalar? r ≠ some (.native (.probe probe))

theorem invoke_apply (host : Host) (callee : Ref) (args : List Ref) (m : Machine)
    (plain : OnlyBuiltins m.heap) :
    invoke host callee args m = (m.callEffect m.depth m.top.home callee args).perform m := by
  simp only [invoke, bind_apply, get_apply, callEffect]
  cases found : m.heap.scalar? callee with
  | none => rfl
  | some scalar =>
      cases scalar with
      | native native =>
          cases native with
          | builtin builtin => exact callNative_apply host builtin args m
          | probe probe => exact absurd found (plain callee probe)
      | function code => exact callCode_apply code args m
      | expander code => rfl
      | integer value => rfl
      | symbol name => rfl
      | moduleCell id => rfl

theorem callEffect_bare (m : Machine) (depth : Nat) (home : ModuleId) (callee : Ref)
    (args : List Ref) :
    m.bare.callEffect depth home callee args = m.callEffect depth home callee args := by
  simp only [callEffect, nativeEffect, Builtin.plan_bare]
  rfl

end Machine

/-! ## Instructions -/

/-- What one instruction does to the top frame: the frame goes on, calls a value,
    returns or fails. -/
inductive Effect where
  | stay (frame : Frame)
  | call (frame : Frame) (callee : Ref) (args : List Ref)
  | back (frame : Frame)
  | fail (frame : Frame) (error : RuntimeError)

namespace Frame

/-- The frame with one more value on its work stack. -/
def push (frame : Frame) (value : Ref) : Frame := { frame with stack := value :: frame.stack }

/-- The frame at another offset of its code. -/
def jump (frame : Frame) (pc : Nat) : Frame :=
  match frame.activity with
  | .running code _ => { frame with activity := .running code pc }
  | _ => frame

/-- Takes the top value of the work stack. -/
def popped (frame : Frame) (next : Ref → Frame → Effect) : Effect :=
  match frame.stack with
  | [] => .fail frame .stackUnderflow
  | value :: rest => next value { frame with stack := rest }

/-- Pushes a value if there is one. -/
def pushedOr (frame : Frame) (value : Option Ref) (error : RuntimeError) : Effect :=
  match value with
  | some value => .stay (frame.push value)
  | none => .fail frame error

/-- Looks the symbol on the work stack up. -/
def lookedUp (frame : Frame) (m : Machine) (op : Opcode) (binding : Ref → Option Ref)
    (unbound : String → RuntimeError) : Effect :=
  frame.popped fun symbol frame =>
    if m.heap.isSymbol symbol then
      frame.pushedOr (binding symbol) (unbound (m.display symbol))
    else .fail frame (m.typeError op.mnemonic "symbol" symbol)

end Frame

/-- What an instruction that was fetched at `pc` does; the frame has moved on to the
    next one already. -/
def Opcode.effect (m : Machine) (code : Code) (pc operand : Nat) (frame : Frame) :
    Opcode → Effect
  | .pushNull => .stay (frame.push .null)
  | .pushConstant =>
      frame.pushedOr code.constants[operand]? (.invalidOperand .pushConstant operand pc)
  | .loadLocal => frame.pushedOr frame.locals[operand]? (.invalidOperand .loadLocal operand pc)
  | .storeLocal =>
      frame.popped fun value frame =>
        if operand < frame.locals.size then
          .stay { frame with locals := frame.locals.setIfInBounds operand value }
        else .fail frame (.invalidOperand .storeLocal operand pc)
  | .loadModuleValue =>
      frame.lookedUp m .loadModuleValue (m.registry.value? frame.home) .unboundValue
  | .loadModuleFunction =>
      frame.lookedUp m .loadModuleFunction (m.registry.function? frame.home) .unboundFunction
  | .branch => .stay (frame.jump operand)
  | .branchIfNull =>
      frame.popped fun value frame => .stay (if value.isNull then frame.jump operand else frame)
  | .call =>
      match Machine.takeArgs operand frame.stack [] with
      | some (args, callee :: rest) => .call { frame with stack := rest } callee args
      | _ => .fail frame .stackUnderflow
  | .ret => .back frame
  | .pop => frame.popped fun _ frame => .stay frame

/-- What the next instruction of a frame does. -/
def Frame.effect (m : Machine) (frame : Frame) : Effect :=
  match frame.activity with
  | .running code pc =>
      match code.fetch pc with
      | .error e => .fail frame e
      | .ok (op, operand) =>
          op.effect m code pc operand
            { frame with activity := .running code (pc + 1 + op.width) }
  | _ => .fail frame .returnFromTopLevel

namespace Machine

theorem effect_of_fetch {m : Machine} {frame : Frame} {code : Code} {pc operand : Nat}
    {op : Opcode} (doing : frame.activity = .running code pc)
    (found : code.fetch pc = .ok (op, operand)) :
    frame.effect m =
      op.effect m code pc operand
        { frame with activity := .running code (pc + 1 + op.width) } := by
  simp only [Frame.effect, doing, found]

theorem takeArgs_append (taken rest args : List Ref) :
    takeArgs taken.length (taken ++ rest) args = some (taken.reverse ++ args, rest) := by
  induction taken generalizing args with
  | nil => rfl
  | cons value taken ih => simp [takeArgs, ih]

/-- The machine with another top frame. -/
def withTop (m : Machine) (frame : Frame) : Machine := { m with top := frame }

end Machine

/-- Carries out an effect. -/
def Effect.perform (effect : Effect) (host : Host) (m : Machine) :
    EStateM.Result (Stop RuntimeError) Machine Unit :=
  match effect with
  | .stay frame => .ok () (m.withTop frame)
  | .call frame callee args => Machine.invoke host callee args (m.withTop frame)
  | .back frame => Machine.giveBack (m.withTop frame)
  | .fail frame error => .error (.failed error) (m.withTop frame)

namespace Machine

theorem execute_apply (host : Host) (code : Code) (pc : Nat) (op : Opcode) (operand : Nat)
    (m : Machine) :
    execute host code pc op operand m =
      (op.effect m code pc operand m.top).perform host m := by
  cases op with
  | pushNull => rfl
  | pushConstant =>
      simp only [execute, pushOr, Opcode.effect, Frame.pushedOr]
      cases code.constants[operand]? <;> rfl
  | loadLocal =>
      simp only [execute, pushOr, Opcode.effect, Frame.pushedOr]
      cases m.top.locals[operand]? <;> rfl
  | storeLocal =>
      simp only [execute, bind_apply, pop, Opcode.effect, Frame.popped]
      cases m.top.stack with
      | nil => rfl
      | cons value rest =>
          simp only [setVariable]
          split <;> rfl
  | loadModuleValue =>
      simp only [execute, popSymbol, bind_apply, pop, Opcode.effect, Frame.lookedUp, Frame.popped]
      cases m.top.stack with
      | nil => rfl
      | cons symbol rest =>
          simp only [get_apply]
          cases m.heap.isSymbol symbol with
          | false => rfl
          | true =>
              simp only [if_true, pure_apply, pushOr, Frame.pushedOr]
              cases m.registry.value? m.top.home symbol <;> rfl
  | loadModuleFunction =>
      simp only [execute, popSymbol, bind_apply, pop, Opcode.effect, Frame.lookedUp, Frame.popped]
      cases m.top.stack with
      | nil => rfl
      | cons symbol rest =>
          simp only [get_apply]
          cases m.heap.isSymbol symbol with
          | false => rfl
          | true =>
              simp only [if_true, pure_apply, pushOr, Frame.pushedOr]
              cases m.registry.function? m.top.home symbol <;> rfl
  | branch =>
      simp only [execute, modify_apply, jump, Opcode.effect, Frame.jump]
      cases m.top.activity <;> rfl
  | branchIfNull =>
      simp only [execute, bind_apply, pop, Opcode.effect, Frame.popped]
      cases m.top.stack with
      | nil => rfl
      | cons value rest =>
          dsimp only
          cases value.isNull with
          | false => rfl
          | true =>
              simp only [if_true, modify_apply, jump, Frame.jump]
              cases m.top.activity <;> rfl
  | call =>
      simp only [execute, callOnStack, Opcode.effect]
      cases takeArgs operand m.top.stack [] with
      | none => rfl
      | some split =>
          rcases split with ⟨args, _ | ⟨callee, rest⟩⟩ <;> rfl
  | ret => rfl
  | pop =>
      simp only [execute, bind_apply, pop, Opcode.effect, Frame.popped]
      cases m.top.stack <;> rfl

/-- The machine with another journal. -/
def withJournal (m : Machine) (journal : Journal) : Machine := { m with journal := journal }

theorem note_eq (m : Machine) (level : NoteLevel) (text : Machine → String) :
    ∃ journal, m.note level text = m.withJournal journal := by
  unfold note
  split
  · exact ⟨_, rfl⟩
  · exact ⟨m.journal, rfl⟩

/-- A note that is taken on a condition. -/
theorem noteIf_eq (m : Machine) (on : Bool) (level : NoteLevel) (text : Machine → String) :
    ∃ journal, (if on then m.note level text else m) = m.withJournal journal := by
  split
  · exact note_eq m level text
  · exact ⟨m.journal, rfl⟩

/-- A step carries out the effect of the next instruction; besides, it may write to
    the journal. -/
theorem step_apply (host : Host) (m : Machine) :
    ∃ journal, step host m =
      (m.top.effect m).perform host (m.withJournal journal) := by
  unfold step Frame.effect
  cases doing : m.top.activity with
  | native name => exact ⟨m.journal, rfl⟩
  | waiting => exact ⟨m.journal, rfl⟩
  | running code pc =>
      dsimp only
      cases code.fetch pc with
      | error e => exact ⟨m.journal, rfl⟩
      | ok instruction =>
          rcases instruction with ⟨op, operand⟩
          dsimp only
          obtain ⟨journal, noted⟩ := noteIf_eq m m.config.trace .trace fun m =>
            m.traceLine code pc op operand
          refine ⟨journal, ?_⟩
          rw [noted, execute_apply]
          have moved : (m.withJournal journal).jump (pc + 1 + op.width) =
              (m.withJournal journal).withTop
                { m.top with activity := .running code (pc + 1 + op.width) } := by
            simp only [jump, withJournal, doing]
            rfl
          rw [moved]
          cases op <;> rfl

end Machine

end LispMachine
