import LispMachine.Proofs.Compiler.Layout
import LispMachine.Proofs.Machine.Tandem
import Mathlib.Data.List.Forall2

/-!
# Code follows the evaluator

The code of a tree, run in a frame of its own, does what the evaluator does on the
tree: it pushes the same value, fails in the same way or runs on without end, and
heap, modules and output change in the same way.
-/

namespace LispMachine

namespace Machine

/-! ## Single steps -/

theorem step_stay (host : Host) {m : Machine} {frame : Frame}
    (effect : m.top.effect m = .stay frame) :
    ∃ m', Runs host m.callers.size 1 m m' ∧ m'.bare = m.bare ∧ m'.callers = m.callers ∧
      m'.top = frame := by
  obtain ⟨journal, eq⟩ := step_apply host m
  rw [effect] at eq
  exact ⟨_, .step (Nat.lt_succ_self _) eq (.refl _), rfl, rfl, rfl⟩

theorem step_fail (host : Host) {m : Machine} {frame : Frame} {error : RuntimeError}
    (effect : m.top.effect m = .fail frame error) :
    ∃ m', step host m = .error (.failed error) m' ∧ m'.bare = m.bare ∧ m'.callers = m.callers := by
  obtain ⟨journal, eq⟩ := step_apply host m
  rw [effect] at eq
  exact ⟨_, eq, rfl, rfl⟩

theorem step_back (host : Host) {m : Machine} {frame caller : Frame} {callers : Array Frame}
    {value : Ref} {rest : List Ref} (effect : m.top.effect m = .back frame)
    (full : frame.stack = value :: rest) (below : m.callers = callers.push caller) :
    ∃ m', step host m = .ok () m' ∧ m'.bare = m.bare ∧ m'.callers = callers ∧
      m'.top = caller.push value := by
  obtain ⟨journal, eq⟩ := step_apply host m
  have below' : ((m.withJournal journal).withTop frame).callers = callers.push caller := below
  rw [effect, Effect.perform, giveBack_push below',
    show ((m.withJournal journal).withTop frame).top.stack = value :: rest from full] at eq
  exact ⟨_, eq, rfl, rfl, rfl⟩

theorem Runs.grows {host : Host} {floor count : Nat} {m m' : Machine}
    (runs : Runs host floor count m m') (ready : m.Ready) : m.Grows m' := by
  induction runs with
  | refl => exact .refl _
  | step _ done _ ih =>
      have first := step_grows host ready
      rw [done] at first
      exact first.trans (ih (first.ready ready))

/-! ## Following an evaluation -/

/-- What the machine `m` does when an evaluation that starts in `e` has the given
    result. After a success the current frame is again on top, in a state that
    `done` describes; after a failure it is still there, below what failed. -/
inductive Follows {α : Type} (host : Host) (fuel : Nat) (e m : Machine) (done : α → Frame → Prop) :
    EStateM.Result (Stop RuntimeError) Machine α → Prop where
  | ok {a : α} {e' m' : Machine} (count : Nat) : Runs host m.callers.size count m m' →
      m'.bare = e'.bare → m'.callers = m.callers → e'.top = e.top → e'.callers = e.callers →
      done a m'.top → Follows host fuel e m done (.ok a e')
  | failed {error : RuntimeError} {e' m₁ m' : Machine} (count : Nat) :
      Runs host m.callers.size count m m₁ → m.callers.size < m₁.depth →
      step host m₁ = .error (.failed error) m' → m'.bare = e'.bare →
      (∃ frame upper, m'.callers.push m'.top = m.callers.push frame ++ upper) →
      Follows host fuel e m done (.error (.failed error) e')
  | outOfFuel {e' m' : Machine} (count : Nat) : fuel ≤ count →
      Runs host m.callers.size count m m' → Follows host fuel e m done (.error .outOfFuel e')

section

variable {α β : Type} {host : Host} {fuel : Nat} {e m : Machine}

/-- Steps taken beforehand, with nothing to do for the evaluation. -/
theorem Follows.after {done : α → Frame → Prop} {m₁ : Machine}
    {result : EStateM.Result (Stop RuntimeError) Machine α} {count : Nat}
    (runs : Runs host m.callers.size count m m₁) (callers : m₁.callers = m.callers)
    (rest : Follows host fuel e m₁ done result) : Follows host fuel e m done result := by
  cases rest with
  | ok count' runs' bare callers' top' below reached =>
      rw [callers] at runs' callers'
      exact .ok (count + count') (runs.trans runs') bare callers' top' below reached
  | failed count' runs' deep fails bare frames =>
      rw [callers] at runs' deep frames
      exact .failed (count + count') (runs.trans runs') deep fails bare frames
  | outOfFuel count' long runs' =>
      rw [callers] at runs'
      exact .outOfFuel (count + count') (by omega) (runs.trans runs')

theorem Follows.restart {done : α → Frame → Prop} {e₁ : Machine}
    {result : EStateM.Result (Stop RuntimeError) Machine α} (top : e₁.top = e.top)
    (below : e₁.callers = e.callers) (rest : Follows host fuel e₁ m done result) :
    Follows host fuel e m done result := by
  cases rest with
  | ok count runs bare callers top' below' reached =>
      exact .ok count runs bare callers (top'.trans top) (below'.trans below) reached
  | failed count runs deep fails bare frames => exact .failed count runs deep fails bare frames
  | outOfFuel count long runs => exact .outOfFuel count long runs

theorem Follows.finish {done : α → Frame → Prop} {a : α} (same : m.bare = e.bare)
    (reached : done a m.top) : Follows host fuel e m done (.ok a e) :=
  .ok 0 (.refl m) same rfl rfl rfl reached

/-- One more instruction after the evaluation. -/
theorem Follows.thenStay {done done' : α → Frame → Prop}
    {result : EStateM.Result (Stop RuntimeError) Machine α}
    (before : Follows host fuel e m done result)
    (last : ∀ (a : α) (m' : Machine), done a m'.top →
      ∃ frame, m'.top.effect m' = .stay frame ∧ done' a frame) :
    Follows host fuel e m done' result := by
  cases before with
  | ok count runs bare callers top below reached =>
      obtain ⟨frame, effect, reached'⟩ := last _ _ reached
      obtain ⟨m', runs', bare', callers', top'⟩ := step_stay host effect
      rw [callers] at runs' callers'
      refine .ok (count + 1) (runs.trans runs') (bare'.trans bare) callers' top below ?_
      rw [top']
      exact reached'
  | failed count runs deep fails bare frames => exact .failed count runs deep fails bare frames
  | outOfFuel count long runs => exact .outOfFuel count long runs

theorem Follows.imp {done done' : α → Frame → Prop}
    {result : EStateM.Result (Stop RuntimeError) Machine α}
    (before : Follows host fuel e m done result)
    (imp : ∀ a frame, done a frame → done' a frame) : Follows host fuel e m done' result := by
  cases before with
  | ok count runs bare callers top below reached =>
      exact .ok count runs bare callers top below (imp _ _ reached)
  | failed count runs deep fails bare frames => exact .failed count runs deep fails bare frames
  | outOfFuel count long runs => exact .outOfFuel count long runs

/-- Two evaluations in a row. -/
theorem Follows.bind {done : α → Frame → Prop} {done' : β → Frame → Prop}
    {x : Action RuntimeError α} {f : α → Action RuntimeError β} (ready : e.Ready)
    (same : m.bare = e.bare) (first : Follows host fuel e m done (x e))
    (next : ∀ (a : α) (e₁ m₁ : Machine), m₁.bare = e₁.bare → m₁.callers = m.callers →
      e₁.top = e.top → e₁.callers = e.callers → e.Grows e₁ → done a m₁.top →
      Follows host fuel e₁ m₁ done' (f a e₁)) :
    Follows host fuel e m done' ((x >>= f) e) := by
  rw [bind_apply]
  cases result : x e with
  | error stop e₁ =>
      rw [result] at first
      cases first with
      | failed count runs deep fails bare frames => exact .failed count runs deep fails bare frames
      | outOfFuel count long runs => exact .outOfFuel count long runs
  | ok a e₁ =>
      rw [result] at first
      cases first with
      | ok count runs bare callers top below reached =>
          have grows := (runs.grows (ready.of_bare same.symm)).of_bare same bare
          exact .after runs callers (.restart top below (next a e₁ _ bare callers top below grows reached))

end

end Machine

/-! ## Variables -/

/-- The variables hold the values of an environment at the slots of its names. -/
def Matches (locals : Array Ref) (scope : List (Ref × Nat)) (env : List (Ref × Ref)) : Prop :=
  List.Forall₂ (fun slot bound => slot.1 = bound.1 ∧ locals[slot.2]? = some bound.2) scope env

theorem Matches.lookup {locals : Array Ref} {scope : List (Ref × Nat)} {env : List (Ref × Ref)}
    (bound : Matches locals scope env) (symbol : Ref) :
    match Assoc.lookup symbol scope with
    | some slot => ∃ value, Assoc.lookup symbol env = some value ∧ locals[slot]? = some value
    | none => Assoc.lookup symbol env = none := by
  induction bound with
  | nil => rfl
  | @cons slot value scope env same _ ih =>
      rcases slot with ⟨name, slot⟩
      rcases value with ⟨name', value⟩
      obtain ⟨rfl, held⟩ := same
      simp only [Assoc.lookup]
      by_cases hit : name = symbol
      · simp only [hit, if_true]
        exact ⟨value, rfl, held⟩
      · simp only [hit, if_false]
        exact ih

theorem Matches.frame {locals locals' : Array Ref} {scope : List (Ref × Nat)}
    {env : List (Ref × Ref)} (bound : Matches locals scope env)
    (same : ∀ entry ∈ scope, locals'[entry.2]? = locals[entry.2]?) : Matches locals' scope env := by
  induction bound with
  | nil => exact .nil
  | cons held _ ih =>
      refine .cons ⟨held.1, (same _ (by simp)).trans held.2⟩ (ih ?_)
      intro entry member
      exact same entry (List.mem_cons_of_mem _ member)

/-- Variables that differ from others at the slots from `n` up to `n'` at most. -/
structure Within (n n' : Nat) (locals locals' : Array Ref) : Prop where
  size : locals'.size = locals.size
  same : ∀ slot, slot < n ∨ n' ≤ slot → locals'[slot]? = locals[slot]?

theorem Within.refl (n n' : Nat) (locals : Array Ref) : Within n n' locals locals :=
  ⟨rfl, fun _ _ => rfl⟩

theorem Within.trans {n n₁ n₂ : Nat} {locals locals₁ locals₂ : Array Ref}
    (first : Within n n₁ locals locals₁) (second : Within n₁ n₂ locals₁ locals₂) (le : n ≤ n₁)
    (le' : n₁ ≤ n₂) : Within n n₂ locals locals₂ := by
  refine ⟨second.size.trans first.size, fun slot outside => ?_⟩
  rw [second.same slot (by omega), first.same slot (by omega)]

theorem Within.widen {n n' k k' : Nat} {locals locals' : Array Ref}
    (within : Within n n' locals locals') (le : k ≤ n) (le' : n' ≤ k') :
    Within k k' locals locals' :=
  ⟨within.size, fun slot outside => within.same slot (by omega)⟩

/-- The variables of code with `n` slots in use: those of the names in scope hold the
    values of the environment, and the slots that are left hold the empty list. -/
structure Variables (scope : List (Ref × Nat)) (env : List (Ref × Ref)) (n : Nat)
    (locals : Array Ref) : Prop where
  below : Below scope n
  bound : Matches locals scope env
  blank : ∀ slot, n ≤ slot → slot < locals.size → locals[slot]? = some .null

theorem Variables.later {scope : List (Ref × Nat)} {env : List (Ref × Ref)} {n n' : Nat}
    {locals locals' : Array Ref} (vars : Variables scope env n locals)
    (within : Within n n' locals locals') (le : n ≤ n') : Variables scope env n' locals' where
  below := vars.below.later le
  bound := vars.bound.frame fun entry member => within.same _ (Or.inl (vars.below entry member))
  blank := by
    intro slot free inside
    rw [within.size] at inside
    rw [within.same slot (Or.inr free)]
    exact vars.blank slot (by omega) inside

/-! ## Stores -/

/-- Variables after values are stored into slots, one after the other. -/
def storeAll : List Nat → List Ref → Array Ref → Array Ref
  | slot :: slots, value :: values, locals =>
      storeAll slots values (locals.setIfInBounds slot value)
  | _, _, locals => locals

theorem storeAll_append (slots : List Nat) (values : List Ref) (slot : Nat) (value : Ref)
    (locals : Array Ref) (length : slots.length = values.length) :
    storeAll (slots ++ [slot]) (values ++ [value]) locals =
      (storeAll slots values locals).setIfInBounds slot value := by
  induction slots generalizing values locals with
  | nil =>
      obtain rfl := List.eq_nil_of_length_eq_zero length.symm
      rfl
  | cons first slots ih =>
      cases values with
      | nil => cases length
      | cons _ values => exact ih values _ (by simpa using length)

/-- The values that bindings leave on the work stack: those of the initial forms. -/
def initialValues : List (Ref × Option Form) → List (Ref × Ref) → List Ref
  | (_, none) :: bindings, _ :: bound => initialValues bindings bound
  | (_, some _) :: bindings, (_, value) :: bound => value :: initialValues bindings bound
  | _, _ => []

/-- A binding and what it binds: the same name, and the empty list if there is no
    initial form. -/
def Binds (binding : Ref × Option Form) (bound : Ref × Ref) : Prop :=
  binding.1 = bound.1 ∧ (binding.2 = none → bound.2 = .null)

theorem initialValues_length {bindings : List (Ref × Option Form)} {bound : List (Ref × Ref)}
    (binds : List.Forall₂ Binds bindings bound) (slot : Nat) :
    (storeSlots slot bindings).length = (initialValues bindings bound).length := by
  induction binds generalizing slot with
  | nil => rfl
  | @cons binding _ _ _ _ _ ih =>
      rcases binding with ⟨_, _ | _⟩
      · exact ih (slot + 1)
      · exact congrArg (· + 1) (ih (slot + 1))

/-- Storing the initial values binds every name: the slots without an initial value
    hold the empty list already. -/
theorem storeAll_binds {bindings : List (Ref × Option Form)} {bound : List (Ref × Ref)}
    (binds : List.Forall₂ Binds bindings bound) {n : Nat} {locals : Array Ref}
    (blank : ∀ slot, n ≤ slot → slot < locals.size → locals[slot]? = some .null)
    (room : n + bindings.length ≤ locals.size) :
    let locals' := storeAll (storeSlots n bindings).reverse (initialValues bindings bound).reverse locals
    Within n (n + bindings.length) locals locals' ∧
      Matches locals' ((bindings.map Prod.fst).zipIdx n) bound := by
  induction binds generalizing n with
  | nil => exact ⟨.refl _ _ _, .nil⟩
  | @cons binding value bindings bound held binds ih =>
      rcases binding with ⟨name, initial⟩
      rcases value with ⟨name', value⟩
      obtain ⟨rfl, null⟩ := held
      simp only [List.length_cons] at room
      obtain ⟨within, rest⟩ := ih (n := n + 1) (fun slot free => blank slot (by omega)) (by omega)
      have outer : Within n (n + (bindings.length + 1)) locals
          (storeAll (storeSlots (n + 1) bindings).reverse (initialValues bindings bound).reverse
            locals) := within.widen (by omega) (by omega)
      cases initial with
      | none =>
          refine ⟨outer, .cons ⟨rfl, ?_⟩ rest⟩
          rw [null rfl]
          exact (within.same n (Or.inl (by omega))).trans (blank n (Nat.le_refl _) (by omega))
      | some form =>
          simp only [storeSlots, initialValues, List.reverse_cons]
          rw [storeAll_append _ _ _ _ _ (by simp [initialValues_length binds])]
          refine ⟨⟨by simpa using outer.size, fun slot outside => ?_⟩, .cons ⟨rfl, ?_⟩ ?_⟩
          · simp only [List.length_cons] at outside
            rw [Array.getElem?_setIfInBounds_ne (by omega)]
            exact outer.same slot outside
          · rw [Array.getElem?_setIfInBounds_self_of_lt]
            rw [outer.size]
            omega
          · refine rest.frame fun entry member => ?_
            have later : n + 1 ≤ entry.2 := (List.mem_zipIdx member).1
            exact Array.getElem?_setIfInBounds_ne (by omega)

/-- The variables after new names are bound. -/
theorem Variables.extend {scope : List (Ref × Nat)} {env bound : List (Ref × Ref)} {n : Nat}
    {locals locals' : Array Ref} {bindings : List (Ref × Option Form)}
    (vars : Variables scope env n locals)
    (fresh : Matches locals' ((bindings.map Prod.fst).zipIdx n) bound)
    (within : Within n (n + bindings.length) locals locals') :
    Variables (scopeWith n bindings scope) (bound.reverse ++ env) (n + bindings.length) locals' where
  below := vars.below.scopeWith bindings
  bound := List.rel_append (List.rel_reverse fresh)
    (vars.bound.frame fun entry member => within.same _ (Or.inl (vars.below entry member)))
  blank := by
    intro slot free inside
    rw [within.size] at inside
    rw [within.same slot (Or.inr free)]
    exact vars.blank slot (by omega) inside

/-- If the cell is a constant of the code, then it is a symbol on the heap. -/
def Code.Knows (code : Code) (heap : Heap) (r : Ref) : Prop :=
  r ∈ code.constants → heap.isSymbol r = true

theorem Code.Knows.later {code : Code} {heap heap' : Heap} {r : Ref} (known : code.Knows heap r)
    (kept : heap.Keeps heap') : code.Knows heap' r :=
  fun member => kept.isSymbol (known member)

theorem Code.Knows.found {code : Code} {heap : Heap} {r : Ref} (known : code.Knows heap r)
    {index : Nat} (constant : code.constants[index]? = some r) : heap.isSymbol r = true :=
  known (Array.mem_of_getElem? constant)

/-- What the code knows of the names of forms, it knows as long as cells are kept. -/
theorem Form.Named.later {code : Code} {heap heap' : Heap} {form : Form}
    (named : form.Named (code.Knows heap)) (kept : heap.Keeps heap') :
    form.Named (code.Knows heap') :=
  named.mono fun _ known => known.later kept

theorem Form.NamedEach.later {code : Code} {heap heap' : Heap} {forms : List Form}
    (named : Form.NamedEach (code.Knows heap) forms) (kept : heap.Keeps heap') :
    Form.NamedEach (code.Knows heap') forms :=
  named.mono fun _ known => known.later kept

theorem Form.NamedIn.later {code : Code} {heap heap' : Heap} {bindings : List (Ref × Option Form)}
    (named : Form.NamedIn (code.Knows heap) bindings) (kept : heap.Keeps heap') :
    Form.NamedIn (code.Knows heap') bindings :=
  named.mono fun _ known => known.later kept

/-! ## Code beside the evaluator -/

/-- The machine that runs code, beside the one that evaluates: they differ in their
    frames, not in the number of frames. -/
structure Beside (home : ModuleId) (e m : Machine) : Prop where
  ready : e.Ready
  bare : m.bare = e.bare
  depth : m.callers.size = e.callers.size
  home : e.top.home = home

theorem Beside.later {home : ModuleId} {e m e₁ m₁ : Machine} (beside : Beside home e m)
    (bare : m₁.bare = e₁.bare) (callers : m₁.callers = m.callers) (top : e₁.top = e.top)
    (below : e₁.callers = e.callers) (grows : e.Grows e₁) : Beside home e₁ m₁ where
  ready := grows.ready beside.ready
  bare := bare
  depth := by rw [callers, below, beside.depth]
  home := by rw [top, beside.home]

/-- A part is evaluated first; the machines are beside each other afterwards. -/
theorem Beside.bind {α β : Type} {host : Host} {fuel : Nat} {home : ModuleId} {e m : Machine}
    {done : α → Frame → Prop} {done' : β → Frame → Prop} {x : Action RuntimeError α}
    {f : α → Action RuntimeError β} (beside : Beside home e m)
    (first : Machine.Follows host fuel e m done (x e))
    (next : ∀ (a : α) (e₁ m₁ : Machine), Beside home e₁ m₁ → e.heap.Keeps e₁.heap →
      done a m₁.top → Machine.Follows host fuel e₁ m₁ done' (f a e₁)) :
    Machine.Follows host fuel e m done' ((x >>= f) e) := by
  refine first.bind beside.ready beside.bare ?_
  intro a e₁ m₁ bare callers top below grows reached
  exact next a e₁ m₁ (beside.later bare callers top below grows) (grows.keeps beside.ready) reached

/-- Steps of the code alone leave the machines beside each other. -/
theorem Beside.after {α : Type} {host : Host} {fuel count : Nat} {home : ModuleId} {e m m₁ : Machine}
    {done : α → Frame → Prop} {result : EStateM.Result (Stop RuntimeError) Machine α}
    (beside : Beside home e m) (runs : Machine.Runs host m.callers.size count m m₁)
    (bare : m₁.bare = m.bare) (callers : m₁.callers = m.callers)
    (rest : Beside home e m₁ → Machine.Follows host fuel e m₁ done result) :
    Machine.Follows host fuel e m done result :=
  .after runs callers (rest (beside.later (bare.trans beside.bare) callers rfl rfl (.refl e)))

/-- One step of the code alone, which only changes the current frame. -/
theorem Beside.stay {α : Type} {host : Host} {fuel : Nat} {home : ModuleId} {e m : Machine}
    {done : α → Frame → Prop} {result : EStateM.Result (Stop RuntimeError) Machine α} {frame : Frame}
    (beside : Beside home e m) (effect : m.top.effect m = .stay frame)
    (rest : ∀ m₁ : Machine, Beside home e m₁ → m₁.top = frame →
      Machine.Follows host fuel e m₁ done result) :
    Machine.Follows host fuel e m done result := by
  obtain ⟨m₁, runs, bare, callers, top⟩ := Machine.step_stay host effect
  exact beside.after runs bare callers fun beside₁ => rest m₁ beside₁ top

/-- The frame stands at an offset with the given work stack; its variables have changed
    at the slots from `n` up to `n'` at most. -/
def Arrives (code : Code) (home : ModuleId) (pc n n' : Nat) (locals : Array Ref)
    (stack : List Ref) (frame : Frame) : Prop :=
  ∃ locals', frame = ⟨stack, locals', .running code pc, home⟩ ∧ Within n n' locals locals'

theorem Arrives.since {code : Code} {home : ModuleId} {pc n n₁ n₂ : Nat} {locals locals₁ : Array Ref}
    {stack : List Ref} {frame : Frame} (arrives : Arrives code home pc n₁ n₂ locals₁ stack frame)
    (within : Within n n₁ locals locals₁) (le : n ≤ n₁) (le' : n₁ ≤ n₂) :
    Arrives code home pc n n₂ locals stack frame := by
  obtain ⟨locals₂, top, within'⟩ := arrives
  exact ⟨locals₂, top, within.trans within' le le'⟩

section

open Machine

variable {host : Host} {fuel : Nat} {code : Code} {home : ModuleId} {e m : Machine}
  {stack : List Ref} {locals : Array Ref} {pc : Nat}

/-- An instruction that pushes a value. -/
theorem follows_push (beside : Beside home e m) {value : Ref} {done : Ref → Frame → Prop}
    {frame : Frame} (effect : m.top.effect m = .stay frame) (arrived : done value frame) :
    Follows host fuel e m done (.ok value e) := by
  obtain ⟨m', runs, bare, callers, top⟩ := step_stay host effect
  refine .ok 1 runs (bare.trans beside.bare) callers rfl rfl ?_
  rw [top]
  exact arrived

/-- A name is pushed as a constant and looked up in the module. -/
theorem follows_lookup (beside : Beside home e m)
    (top : m.top = ⟨stack, locals, .running code pc, home⟩) {symbol : Ref} {index : Nat}
    {op : Opcode} {binding : Ref → Option Ref} {unbound : String → RuntimeError}
    (push : code.fetch pc = .ok (.pushConstant, index))
    (constant : code.constants[index]? = some symbol) (load : code.fetch (pc + 2) = .ok (op, 0))
    (width : op.width = 0)
    (looks : ∀ frame : Frame, frame.home = home → op.effect m.bare code (pc + 2) 0 frame =
      frame.lookedUp m.bare op binding unbound)
    (isSymbol : e.heap.isSymbol symbol = true) (n : Nat) :
    Follows host fuel e m (fun value => Arrives code home (pc + 3) n n locals (value :: stack))
      (Form.boundOr (binding symbol) unbound symbol e) := by
  have pushed : m.top.effect m =
      .stay ⟨symbol :: stack, locals, .running code (pc + 2), home⟩ := by
    rw [top, effect_of_fetch rfl push]
    simp [Opcode.effect, Frame.pushedOr, constant, Frame.push, Opcode.width]
  refine beside.stay pushed fun m₁ beside₁ top₁ => ?_
  have heap : m.bare.heap = e.heap := (congrArg Machine.heap beside.bare :)
  have text : m.bare.display symbol = e.display symbol :=
    (congrArg (fun m : Machine => m.display symbol) beside.bare :)
  have looked : m₁.top.effect m₁ =
      (⟨stack, locals, .running code (pc + 3), home⟩ : Frame).pushedOr (binding symbol)
        (unbound (e.display symbol)) := by
    rw [← effect_bare, beside₁.bare.trans beside.bare.symm, top₁, effect_of_fetch rfl load,
      looks _ rfl]
    simp [Frame.lookedUp, Frame.popped, heap, isSymbol, text, width]
  unfold Form.boundOr
  cases found : binding symbol with
  | some value =>
      rw [found] at looked
      exact follows_push beside₁ looked ⟨locals, rfl, .refl _ _ _⟩
  | none =>
      rw [found] at looked
      obtain ⟨m', fails, bare', callers'⟩ := step_fail host looked
      refine .failed 0 (.refl m₁) (Nat.lt_succ_self _) fails (bare'.trans beside₁.bare)
        ⟨m'.top, #[], ?_⟩
      simp [callers']

/-- The first step of a call leaves the frame at the next instruction, and has the
    effect that the call has beside the code. -/
theorem step_call (beside : Beside home e m) {frame : Frame} {callee : Ref} {values : List Ref}
    (effect : m.top.effect m = .call frame callee values) (at_ : frame.home = home) (host : Host) :
    ∃ journal, step host m = (e.callEffect e.depth e.top.home callee values).perform
      ((m.withJournal journal).withTop frame) := by
  obtain ⟨journal, stepped⟩ := step_apply host m
  rw [effect] at stepped
  have plain := (beside.ready.of_bare beside.bare.symm).plain
  have same : ((m.withJournal journal).withTop frame).callEffect
      ((m.withJournal journal).withTop frame).depth frame.home callee values =
      e.callEffect e.depth e.top.home callee values := by
    rw [← callEffect_bare, show ((m.withJournal journal).withTop frame).bare = e.bare from beside.bare,
      callEffect_bare, at_, beside.home]
    exact congrArg (fun depth => e.callEffect (depth + 1) home callee values) beside.depth
  refine ⟨journal, ?_⟩
  rw [stepped, ← same]
  exact invoke_apply host callee values ((m.withJournal journal).withTop frame) plain

/-- A call that is back at once: there is nothing to run before its value is taken. -/
theorem follows_returned (beside : Beside home e m) {frame : Frame} {heap : Heap} {output : String}
    {value : Ref} {journal : Journal}
    (stepped : step host m = (CallEffect.returned heap output value).perform
      ((m.withJournal journal).withTop frame)) :
    Follows host fuel e m (fun value top => top = frame.push value)
      ((Machine.run host e.depth fuel >>= fun _ => Machine.pop)
        (({ e.withHeap heap with output := output }).push value)) := by
  have deep : m.callers.size < m.depth := Nat.lt_succ_self _
  rw [bind_apply]
  cases fuel with
  | zero => exact .outOfFuel 0 (Nat.le_refl _) (.refl m)
  | succ fuel =>
      have finished : run host e.depth (fuel + 1)
          (({ e.withHeap heap with output := output }).push value) =
          .ok () (({ e.withHeap heap with output := output }).push value) :=
        if_neg (Nat.lt_irrefl _)
      rw [finished]
      exact .ok 1 (.step deep stepped (.refl _))
        (bare_withOutput (bare_withHeap beside.bare heap) output) rfl rfl rfl rfl

/-- A call that enters a frame: the callee runs in tandem above both frames. -/
theorem follows_entered (beside : Beside home e m) {frame inner : Frame} {heap : Heap}
    {journal : Journal} (extended : e.heap.Extends heap)
    (stepped : step host m = (CallEffect.entered heap inner).perform
      ((m.withJournal journal).withTop frame)) :
    Follows host fuel e m (fun value top => top = frame.push value)
      ((Machine.run host e.depth fuel >>= fun _ => Machine.pop)
        ((e.withHeap heap).withFrame inner)) := by
  have tandem : Tandem m.callers e.callers frame e.top
      ((((m.withJournal journal).withTop frame).withHeap heap).withFrame inner)
      ((e.withHeap heap).withFrame inner) :=
    ⟨bare_withHeap beside.bare heap, beside.depth, rfl, #[],
      by simp [withFrame, withHeap, withTop, withJournal], by simp [withFrame, withHeap]⟩
  have ran := tandem.run host host fuel (extended.wellFormed beside.ready.wellFormed)
    (extended.onlyBuiltins beside.ready.wellFormed beside.ready.plain)
  have first := Runs.step (Nat.lt_succ_self _ : m.callers.size < m.depth) stepped (.refl _)
  have base : e.callers.size + 1 = e.depth := rfl
  rw [base] at ran
  rw [bind_apply]
  cases result : run host e.depth fuel ((e.withHeap heap).withFrame inner) with
  | ok _ e' =>
      rw [result] at ran
      cases ran with
      | back count value runs bare grows callers top callers' top' =>
          simp only [pop, top', Frame.push]
          exact .ok (1 + count) (first.trans (runs.lower (Nat.le_succ _))) bare callers rfl callers' top
  | error stop e' =>
      rw [result] at ran
      cases ran with
      | failed count runs deep fails bare grows frames =>
          obtain ⟨upper, frames⟩ := frames
          exact .failed (1 + count) (first.trans (runs.lower (Nat.le_succ _)))
            (Nat.lt_of_succ_lt deep) fails bare ⟨frame, upper, frames⟩
      | outOfFuel runs =>
          exact .outOfFuel (1 + fuel) (by omega) (first.trans (runs.lower (Nat.le_succ _)))

/-- A call: both machines begin it with the same effect. -/
theorem follows_call (beside : Beside home e m) {callee : Ref} {values : List Ref}
    (top : m.top = ⟨values.reverse ++ callee :: stack, locals, .running code pc, home⟩)
    (found : code.fetch pc = .ok (.call, values.length)) (n : Nat) :
    Follows host fuel e m (fun value => Arrives code home (pc + 2) n n locals (value :: stack))
      (Form.callValue host fuel callee values e) := by
  let frame : Frame := ⟨stack, locals, .running code (pc + 2), home⟩
  have arrives : ∀ (value : Ref) (top : Frame), top = frame.push value →
      Arrives code home (pc + 2) n n locals (value :: stack) top :=
    fun _ _ reached => ⟨locals, reached, .refl _ _ _⟩
  have effect : m.top.effect m = .call frame callee values := by
    have taken := takeArgs_append values.reverse (callee :: stack) []
    rw [List.length_reverse, List.reverse_reverse, List.append_nil] at taken
    rw [top, effect_of_fetch rfl found]
    simp only [Opcode.effect, taken]
    rfl
  obtain ⟨journal, stepped⟩ := step_call beside effect rfl host
  have called := invoke_apply host callee values e beside.ready.plain
  have extended := callEffect_extends e beside.ready.wellFormed e.depth e.top.home callee values
  have deep : m.callers.size < m.depth := Nat.lt_succ_self _
  rw [Form.callValue, bind_apply, get_apply]
  dsimp only
  rw [bind_apply, called]
  cases effect_eq : e.callEffect e.depth e.top.home callee values with
  | returned heap output value =>
      rw [effect_eq] at stepped
      exact (follows_returned beside stepped).imp arrives
  | entered heap inner =>
      rw [effect_eq] at stepped extended
      exact (follows_entered beside extended stepped).imp arrives
  | failed error heap inner =>
      rw [effect_eq] at stepped
      cases inner with
      | none =>
          refine .failed 0 (.refl m) deep stepped (bare_withHeap beside.bare heap) ⟨frame, #[], ?_⟩
          simp [withHeap, withTop, withJournal]
      | some inner =>
          refine .failed 0 (.refl m) deep stepped (bare_withHeap beside.bare heap)
            ⟨frame, #[inner], ?_⟩
          simp [withFrame, withHeap, withTop, withJournal]

/-- The stores of bindings, last value first. -/
theorem LaysStores.runs {slots : List Nat} {pc pc' : Nat} (laid : LaysStores code slots pc pc')
    (host : Host) {m : Machine} {values : List Ref} {locals : Array Ref} (length : slots.length = values.length)
    (top : m.top = ⟨values ++ stack, locals, .running code pc, home⟩)
    (room : ∀ slot ∈ slots, slot < locals.size) :
    ∃ count m', Runs host m.callers.size count m m' ∧ m'.bare = m.bare ∧ m'.callers = m.callers ∧
      m'.top = ⟨stack, storeAll slots values locals, .running code pc', home⟩ := by
  induction laid generalizing m values locals with
  | nil =>
      obtain rfl := List.eq_nil_of_length_eq_zero length.symm
      exact ⟨0, m, .refl m, rfl, rfl, top⟩
  | @cons slot pc pc' slots found _ ih =>
      cases values with
      | nil => cases length
      | cons value values =>
          have inside := room slot (by simp)
          have effect : m.top.effect m =
              .stay ⟨values ++ stack, locals.setIfInBounds slot value, .running code (pc + 2), home⟩ := by
            rw [top, effect_of_fetch rfl found]
            simp [Opcode.effect, Frame.popped, inside, Opcode.width]
          obtain ⟨m₁, runs, bare, callers, top₁⟩ := step_stay host effect
          obtain ⟨count, m', runs', bare', callers', top'⟩ := ih (by simpa using length) top₁
            (fun other member => by simpa using room other (List.mem_cons_of_mem _ member))
          rw [callers] at runs' callers'
          exact ⟨1 + count, m', runs.trans runs', bare'.trans bare, callers', top'⟩

end

/-! ## Trees -/

section

open Machine

variable {host : Host} {fuel : Nat} {code : Code} {home : ModuleId}

mutual

/-- The code of a tree does what evaluating the tree does. -/
theorem Lays.follows {scope : List (Ref × Nat)} {form : Form} {pc n pc' n' : Nat}
    (laid : Lays code scope form pc n pc' n') {env : List (Ref × Ref)} {stack : List Ref}
    {locals : Array Ref} {e m : Machine} (vars : Variables scope env n locals)
    (room : n' ≤ locals.size) (beside : Beside home e m)
    (top : m.top = ⟨stack, locals, .running code pc, home⟩)
    (named : form.Named (code.Knows e.heap)) :
    Follows host fuel e m (fun value => Arrives code home pc' n n' locals (value :: stack))
      (form.eval host fuel home env e) := by
  cases laid with
  | null found =>
      refine follows_push beside ?_ ⟨locals, rfl, .refl _ _ _⟩
      rw [top, effect_of_fetch rfl found]
      rfl
  | constant found held =>
      refine follows_push beside ?_ ⟨locals, rfl, .refl _ _ _⟩
      rw [top, effect_of_fetch rfl found]
      simp [Opcode.effect, Frame.pushedOr, held, Frame.push, Opcode.width]
  | @localName _ symbol _ _ slot resolved found =>
      have lookup := vars.bound.lookup symbol
      rw [resolved] at lookup
      obtain ⟨value, bound, held⟩ := lookup
      simp only [Form.eval, bound]
      refine follows_push beside ?_ ⟨locals, rfl, .refl _ _ _⟩
      rw [top, effect_of_fetch rfl found]
      simp [Opcode.effect, Frame.pushedOr, held, Frame.push, Opcode.width]
  | @moduleName _ symbol _ _ index resolved push constant load =>
      have unbound := vars.bound.lookup symbol
      rw [resolved] at unbound
      simp only [Form.eval, unbound, bind_apply, get_apply]
      have registry : m.registry = e.registry := (congrArg Machine.registry beside.bare :)
      refine follows_lookup beside top push constant load rfl ?_ (named.found constant) n
      intro frame at_
      simp only [Opcode.effect, at_, ← registry]
      rfl
  | @function _ symbol _ _ index push constant load =>
      simp only [Form.eval, bind_apply, get_apply]
      have registry : m.registry = e.registry := (congrArg Machine.registry beside.bare :)
      refine follows_lookup beside top push constant load rfl ?_ (named.found constant) n
      intro frame at_
      simp only [Opcode.effect, at_, ← registry]
      rfl
  | @choice _ _ _ _ _ _ pc₁ n₁ pc₂ n₂ _ _ first branch second jump third =>
      have le₁ := first.bounds.2
      have le₂ := second.bounds.2
      have le₃ := third.bounds.2
      simp only [Form.eval]
      refine beside.bind (first.follows vars (by omega) beside top named.1) ?_
      rintro value e₁ m₁ beside₁ kept ⟨locals₁, at_, within⟩
      have vars₁ := vars.later within le₁
      have size := within.size
      have effect : m₁.top.effect m₁ = .stay (if value.isNull
          then ⟨stack, locals₁, .running code (pc₂ + 2), home⟩
          else ⟨stack, locals₁, .running code (pc₁ + 2), home⟩) := by
        rw [at_, effect_of_fetch rfl branch]
        rfl
      refine beside₁.stay effect fun m₂ beside₂ top₂ => ?_
      cases null : value.isNull with
      | true =>
          rw [null, if_pos rfl] at top₂
          -- The slots of the consequence are skipped; they stay blank.
          have skipped := vars₁.later (.refl n₁ n₂ locals₁) le₂
          refine (third.follows skipped (by omega) beside₂ top₂ (named.2.2.later kept)).imp ?_
          intro _ frame arrives
          exact arrives.since (within.widen (Nat.le_refl _) le₂) (by omega) le₃
      | false =>
          rw [null, if_neg (by simp)] at top₂
          refine (second.follows vars₁ (by omega) beside₂ top₂ (named.2.1.later kept)).thenStay ?_
          rintro result m' ⟨locals₂, at₂, within₂⟩
          refine ⟨⟨result :: stack, locals₂, .running code pc', home⟩, ?_, locals₂, rfl,
            (within.trans within₂ le₁ le₂).widen (Nat.le_refl _) le₃⟩
          rw [at₂, effect_of_fetch rfl jump]
          rfl
  | @sequence _ _ _ _ _ pc₁ n₁ _ _ first pop second =>
      have le₁ := first.bounds.2
      have le₂ := second.bounds.2
      simp only [Form.eval]
      refine beside.bind (first.follows vars (by omega) beside top named.1) ?_
      rintro value e₁ m₁ beside₁ kept ⟨locals₁, at_, within⟩
      have size := within.size
      have effect : m₁.top.effect m₁ =
          .stay ⟨stack, locals₁, .running code (pc₁ + 1), home⟩ := by
        rw [at_, effect_of_fetch rfl pop]
        rfl
      refine beside₁.stay effect fun m₂ beside₂ top₂ => ?_
      refine (second.follows (vars.later within le₁) (by omega) beside₂ top₂ (named.2.later kept)).imp ?_
      intro _ frame arrives
      exact arrives.since within le₁ le₂
  | @bind _ bindings _ _ _ pc₁ n₁ pc₂ _ _ values stores body =>
      have le₁ := values.bounds.2
      have le₃ := body.bounds.2
      simp only [Form.eval]
      refine beside.bind (values.follows vars (by omega) beside top named.1) ?_
      rintro bound e₁ m₁ beside₁ kept ⟨binds, locals₁, at_, within⟩
      have size := within.size
      have vars₁ := vars.later within le₁
      obtain ⟨within₂, fresh⟩ := storeAll_binds binds vars₁.blank (by omega)
      have size₂ := within₂.size
      obtain ⟨count, m₂, runs, bare₂, callers₂, top₂⟩ := stores.runs host
        (by simp [initialValues_length binds]) at_ (by
          intro slot member
          have _ := mem_storeSlots (List.mem_reverse.1 member)
          omega)
      refine beside₁.after runs bare₂ callers₂ fun beside₂ => ?_
      refine (body.follows (vars₁.extend fresh within₂) (by omega) beside₂ top₂
        (named.2.later kept)).imp ?_
      intro _ frame arrives
      exact arrives.since (within.trans within₂ le₁ (by omega)) (by omega) le₃
  | @call _ _ args _ _ pc₁ n₁ pc₂ _ callee each call =>
      have le₁ := callee.bounds.2
      have le₂ := each.bounds.2
      simp only [Form.eval]
      refine beside.bind (callee.follows vars (by omega) beside top named.1) ?_
      rintro function e₁ m₁ beside₁ kept ⟨locals₁, at_, within⟩
      have size := within.size
      refine beside₁.bind (each.follows (vars.later within le₁) (by omega) beside₁ at_
        (named.2.later kept)) ?_
      rintro arguments e₂ m₂ beside₂ _ ⟨length, locals₂, at₂, within₂⟩
      rw [← length] at call
      refine (follows_call beside₂ at₂ call n').imp ?_
      rintro _ frame ⟨locals₃, arrived, unchanged⟩
      refine ⟨locals₃, arrived, (within.trans within₂ le₁ le₂).trans unchanged (by omega) (Nat.le_refl _)⟩

theorem LaysEach.follows {scope : List (Ref × Nat)} {forms : List Form} {pc n pc' n' : Nat}
    (laid : LaysEach code scope forms pc n pc' n') {env : List (Ref × Ref)} {stack : List Ref}
    {locals : Array Ref} {e m : Machine} (vars : Variables scope env n locals)
    (room : n' ≤ locals.size) (beside : Beside home e m)
    (top : m.top = ⟨stack, locals, .running code pc, home⟩)
    (named : Form.NamedEach (code.Knows e.heap) forms) :
    Follows host fuel e m
      (fun values frame => values.length = forms.length ∧
        Arrives code home pc' n n' locals (values.reverse ++ stack) frame)
      (Form.evalEach host fuel home env forms e) := by
  cases laid with
  | nil =>
      refine Follows.finish beside.bare ⟨rfl, locals, ?_, .refl _ _ _⟩
      exact top
  | @cons _ _ _ _ _ pc₁ n₁ _ _ first rest =>
      have le₁ := first.bounds.2
      have le₂ := rest.bounds.2
      simp only [Form.evalEach]
      refine beside.bind (first.follows vars (by omega) beside top named.1) ?_
      rintro value e₁ m₁ beside₁ kept ⟨locals₁, at_, within⟩
      have size := within.size
      refine beside₁.bind (rest.follows (vars.later within le₁) (by omega) beside₁ at_
        (named.2.later kept)) ?_
      rintro values e₂ m₂ beside₂ _ ⟨length, arrives⟩
      refine Follows.finish beside₂.bare ⟨by simp [length], ?_⟩
      rw [List.reverse_cons, List.append_assoc]
      exact arrives.since within le₁ le₂

theorem LaysIn.follows {scope : List (Ref × Nat)} {bindings : List (Ref × Option Form)}
    {pc n pc' n' : Nat} (laid : LaysIn code scope bindings pc n pc' n') {env : List (Ref × Ref)}
    {stack : List Ref} {locals : Array Ref} {e m : Machine} (vars : Variables scope env n locals)
    (room : n' ≤ locals.size) (beside : Beside home e m)
    (top : m.top = ⟨stack, locals, .running code pc, home⟩)
    (named : Form.NamedIn (code.Knows e.heap) bindings) :
    Follows host fuel e m
      (fun bound frame => List.Forall₂ Binds bindings bound ∧
        Arrives code home pc' n n' locals ((initialValues bindings bound).reverse ++ stack) frame)
      (Form.evalBindings host fuel home env bindings e) := by
  cases laid with
  | nil => exact Follows.finish beside.bare ⟨.nil, locals, top, .refl _ _ _⟩
  | blank rest =>
      simp only [Form.evalBindings]
      refine beside.bind (rest.follows vars room beside top named) ?_
      rintro bound e₁ m₁ beside₁ _ ⟨binds, arrives⟩
      exact Follows.finish beside₁.bare ⟨.cons ⟨rfl, fun _ => rfl⟩ binds, arrives⟩
  | @initial _ _ _ _ _ _ pc₁ n₁ _ _ first rest =>
      have le₁ := first.bounds.2
      have le₂ := rest.bounds.2
      simp only [Form.evalBindings]
      refine beside.bind (first.follows vars (by omega) beside top named.1) ?_
      rintro value e₁ m₁ beside₁ kept ⟨locals₁, at_, within⟩
      have size := within.size
      refine beside₁.bind (rest.follows (vars.later within le₁) (by omega) beside₁ at_
        (named.2.later kept)) ?_
      rintro bound e₂ m₂ beside₂ _ ⟨binds, arrives⟩
      refine Follows.finish beside₂.bare ⟨.cons ⟨rfl, fun missing => by cases missing⟩ binds, ?_⟩
      rw [initialValues, List.reverse_cons, List.append_assoc]
      exact arrives.since within le₁ le₂

end

end

end LispMachine
