import LispMachine.Proofs.Heap.Accounting
import LispMachine.Proofs.Machine.Safety
import LispMachine.Proofs.Twins.Run

/-!
# Running out of cells

An allocation fails in a heap only that has no free cell and may not grow, and the
failure leaves that heap as it was. So a computation that fails for want of a cell leaves
a heap in which no cell can be allocated. Nothing else is asked of the machine, and
nothing of the natives that re-enter it, as long as its host has the same property.
-/

namespace LispMachine

/-! ## Heaps without room -/

namespace Heap

/-- No cell can be allocated. -/
def IsExhausted (h : Heap) : Prop := ∀ cell, ∃ e, alloc cell h = .error e h

section

variable {h h' : Heap} {e : HeapError}

/-- A new arena has a free cell. -/
theorem place_grown (h : Heap) (cell : Cell) : ∃ r h', place cell h.grown = .ok r h' :=
  ⟨_, _, place_eq cell rfl (@grown_getElem?_new h 0 h.arenaSize_pos)⟩

theorem alloc_error_exhausted {cell : Cell} (failed : alloc cell h = .error e h') :
    h'.IsExhausted := by
  rw [alloc_eq] at failed
  by_cases empty : h.freeHead.isNull = true
  · rw [if_pos empty] at failed
    cases room : h.mayGrow with
    | true =>
        obtain ⟨r, h'', placed⟩ := place_grown h cell
        rw [room, if_pos rfl, placed] at failed
        cases failed
    | false =>
        rw [room] at failed
        cases failed
        exact fun other => ⟨_, by rw [alloc_eq, if_pos empty, room]; rfl⟩
  · rw [if_neg empty] at failed
    unfold place at failed
    split at failed
    · cases failed
    · next missing =>
        cases failed
        refine fun other => ⟨.exhausted 0, ?_⟩
        rw [alloc_eq, if_neg empty]
        unfold place
        split
        · next slot old found held => exact absurd held (missing slot old found)
        · rfl

/-- In a heap with a sound free list this is to say that it is full. -/
theorem WellFormed.isExhausted_iff (wf : h.WellFormed) : h.IsExhausted ↔ h.IsFull := by
  constructor
  · intro exhausted
    obtain ⟨e, failed⟩ := exhausted (.pair .null .null)
    exact (alloc_allocates wf (.pair .null .null)).fails_iff.1 ⟨e, h, failed⟩
  · intro full cell
    have allocates := alloc_allocates wf cell
    generalize alloc cell h = result at allocates
    cases allocates with
    | takes notFull _ => exact absurd full notFull
    | full _ => exact ⟨_, rfl⟩

/-- A list of no items takes no cell, and any other takes one. -/
theorem listWithTail_exhausted (exhausted : h.IsExhausted) {items : List Ref} (some : items ≠ [])
    (tail : Ref) : ∃ e, listWithTail items tail h = .error e h := by
  induction items with
  | nil => exact absurd rfl some
  | cons item items ih =>
      rw [listWithTail_cons]
      cases items with
      | nil => exact exhausted (.pair item tail)
      | cons next items =>
          obtain ⟨e, failed⟩ := ih (List.cons_ne_nil _ _)
          exact ⟨e, by rw [failed]⟩

end

end Heap

/-! ## Computations that run out -/

/-- The computation leaves no room in the heap when it fails for want of a cell. -/
def Drains {ε σ α : Type} (heapOf : σ → Heap) (lack : ε → Prop) (x : EStateM ε σ α) : Prop :=
  ∀ s e s', x s = .error e s' → lack e → (heapOf s').IsExhausted

/-- The end of a computation by a failure of this kind. -/
def Stop.Tells {ε : Type} (kind : ε → Bool) : Stop ε → Prop
  | .failed error => kind error = true
  | .outOfFuel => False

section

variable {ε σ α β : Type} {heapOf : σ → Heap} {lack : ε → Prop}

theorem Drains.bind {x : EStateM ε σ α} {f : α → EStateM ε σ β} (first : Drains heapOf lack x)
    (second : ∀ a, Drains heapOf lack (f a)) : Drains heapOf lack (x >>= f) := by
  intro s e s' failed lacks
  rw [bind_apply] at failed
  cases done : x s with
  | ok a s₁ =>
      rw [done] at failed
      exact second a s₁ e s' failed lacks
  | error e₁ s₁ =>
      rw [done] at failed
      cases failed
      exact first s e s' done lacks

/-- A computation that looks at the state first. -/
theorem Drains.get {f : σ → EStateM ε σ α} (next : ∀ s, Drains heapOf lack (f s)) :
    Drains heapOf lack (get >>= f) :=
  fun s => next s s

theorem drains_pure (a : α) : Drains heapOf lack (pure a : EStateM ε σ α) := nofun

theorem drains_modify (f : σ → σ) : Drains heapOf lack (modify f : EStateM ε σ PUnit) := nofun

theorem drains_modifyGet (f : σ → α × σ) :
    Drains heapOf lack (modifyGet f : EStateM ε σ α) := by
  intro s e s' failed
  cases failed

theorem drains_throw {e : ε} (other : ¬ lack e) : Drains heapOf lack (throw e : EStateM ε σ α) := by
  rintro s e' s' ⟨⟩ lacks
  exact absurd lacks other

end

/-! ## Allocation -/

namespace Heap

/-- Every failure of the heap is a lack of cells. -/
abbrev Drains {α : Type} (x : EStateM HeapError Heap α) : Prop :=
  LispMachine.Drains id (fun _ => True) x

theorem drains_alloc (cell : Cell) : Drains (alloc cell) :=
  fun _ _ _ failed _ => alloc_error_exhausted failed

theorem drains_listWithTail (items : List Ref) (tail : Ref) : Drains (listWithTail items tail) := by
  induction items with
  | nil => exact drains_pure tail
  | cons item items ih =>
      simp only [listWithTail, List.foldrM_cons] at ih ⊢
      exact ih.bind fun rest => drains_alloc (.pair item rest)

theorem drains_list (items : List Ref) : Drains (list items) := drains_listWithTail items .null

end Heap

namespace Store

theorem drains_onHeap {α : Type} {x : EStateM HeapError Heap α} (drains : Heap.Drains x) :
    Drains Store.heap (fun _ => True) (onHeap x) := by
  intro s e s' failed _
  rw [onHeap_apply] at failed
  cases done : x s.heap with
  | ok a h =>
      rw [done] at failed
      cases failed
  | error e h =>
      rw [done] at failed
      cases failed
      exact drains s.heap e h done trivial

theorem drains_intern (name : String) : Drains Store.heap (fun _ => True) (intern name) := by
  refine Drains.get fun s => ?_
  cases s.lookup name with
  | some cell => exact drains_pure cell
  | none =>
      refine (drains_onHeap (Heap.drains_alloc _)).bind fun cell => ?_
      exact (drains_modify _).bind fun _ => drains_pure cell

end Store

/-! ## Machines -/

namespace Machine

section

variable {ε α : Type} {lack : ε → Prop}

theorem drains_onStore (f : HeapError → ε) {x : EStateM HeapError Store α}
    (drains : Drains Store.heap (fun _ => True) x) : Drains Machine.heap lack (onStore f x) := by
  intro m e m' failed _
  unfold onStore at failed
  dsimp only at failed
  cases done : x m.store with
  | ok a s =>
      rw [done] at failed
      cases failed
  | error e s =>
      rw [done] at failed
      cases failed
      exact drains m.store e s done trivial

theorem drains_onHeap (f : HeapError → ε) {x : EStateM HeapError Heap α} (drains : Heap.Drains x) :
    Drains Machine.heap lack (onHeap f x) :=
  drains_onStore f (Store.drains_onHeap drains)

theorem drains_intern (f : HeapError → ε) (name : String) :
    Drains Machine.heap lack (intern f name) :=
  drains_onStore f (Store.drains_intern name)

end

/-- The action leaves no room in the heap when it fails for want of a cell. -/
abbrev Spends {α : Type} (action : Action RuntimeError α) : Prop :=
  Drains Machine.heap (Stop.Tells (RuntimeError.isLimit true)) action

theorem spends_fail {α : Type} {error : RuntimeError} (other : error.isLimit true = false) :
    Spends (fail error : Action RuntimeError α) :=
  drains_throw fun lacks => by simp [Stop.Tells, other] at lacks

theorem spends_onHeap {α : Type} {x : EStateM HeapError Heap α} (drains : Heap.Drains x) :
    Spends (onHeap RuntimeError.ofHeap x) :=
  drains_onHeap _ drains

theorem spends_enter (frame : Frame) : Spends (enter frame) := by
  intro m e m' failed lacks
  rw [enter_apply] at failed
  split at failed <;> cases failed
  cases lacks

theorem spends_pop : Spends pop := by
  intro m e m' failed lacks
  unfold pop at failed
  split at failed <;> cases failed
  cases lacks

theorem spends_checkArity (name : Machine → String) (arity : Arity) (count : Nat) :
    Spends (checkArity name arity count) := by
  intro m e m' failed lacks
  unfold checkArity at failed
  split at failed <;> cases failed
  cases lacks

theorem spends_giveBack : Spends giveBack := by
  intro m e m' failed lacks
  unfold giveBack at failed
  split at failed
  · cases failed
    cases lacks
  · split at failed <;> cases failed
    cases lacks

theorem spends_popSymbol (op : Opcode) : Spends (popSymbol op) := by
  refine spends_pop.bind fun symbol => Drains.get fun m => ?_
  split
  · exact drains_pure symbol
  · exact spends_fail rfl

theorem spends_pushOr (value : Option Ref) {onMissing : Machine → RuntimeError}
    (other : ∀ m, (onMissing m).isLimit true = false) : Spends (pushOr value onMissing) := by
  intro m e m' failed lacks
  unfold pushOr at failed
  split at failed <;> cases failed
  simp [Stop.Tells, other] at lacks

theorem spends_callCode (code : Code) (args : List Ref) : Spends (callCode code args) := by
  refine (spends_checkArity _ _ _).bind fun _ => Drains.bind ?_ fun args => ?_
  · unfold gatherRest
    split
    · exact (spends_onHeap (Heap.drains_list _)).bind fun rest => drains_pure _
    · exact drains_pure args
  · exact Drains.get fun m => spends_enter _

theorem fetch_error {code : Code} {pc : Nat} {error : RuntimeError}
    (failed : code.fetch pc = .error error) : error.isLimit true = false := by
  unfold Code.fetch at failed
  split at failed
  · cases failed
    rfl
  · split at failed
    · cases failed
      rfl
    · split at failed
      · split at failed <;> cases failed
        rfl
      · cases failed

end Machine

/-! ## Natives -/

namespace Builtin

open Machine

theorem spends_arithmetic (builtin : Builtin) (compute : List Int64 → Option Int64)
    (args : List Ref) : Spends (arithmetic builtin compute args) := by
  refine Drains.get fun m => ?_
  split
  · next failed =>
      obtain ⟨found, rfl⟩ := integers_error failed
      exact spends_fail rfl
  · split
    · exact spends_fail rfl
    · exact spends_onHeap (Heap.drains_alloc _)

theorem spends_comparison (builtin : Builtin) (holds : Int64 → Int64 → Bool) (args : List Ref) :
    Spends (comparison builtin holds args) := by
  refine Drains.get fun m => ?_
  split
  · next failed =>
      obtain ⟨found, rfl⟩ := integers_error failed
      exact spends_fail rfl
  · exact drains_pure _

theorem spends_half (builtin : Builtin) (part : Ref × Ref → Ref) (list : Ref) :
    Spends (half builtin part list) := by
  refine Drains.get fun m => ?_
  split
  · exact drains_pure _
  · split
    · exact drains_pure _
    · exact spends_fail rfl

theorem spends_run (builtin : Builtin) (args : List Ref) : Spends (builtin.run args) := by
  unfold Builtin.run
  cases builtin with
  | add => exact spends_arithmetic _ _ _
  | subtract => exact spends_arithmetic _ _ _
  | multiply => exact spends_arithmetic _ _ _
  | less => exact spends_comparison _ _ _
  | equal => exact spends_comparison _ _ _
  | same => exact Drains.get fun m => drains_pure _
  | car => exact spends_half _ _ _
  | cdr => exact spends_half _ _ _
  | cons => exact spends_onHeap (Heap.drains_alloc _)
  | list => exact spends_onHeap (Heap.drains_list args)
  | isNull => exact Drains.get fun m => drains_pure _
  | print => exact (drains_modify _).bind fun _ => drains_pure _

end Builtin

namespace Machine

/-- What the host does for a native has the property too. -/
def HostSpends (host : Host) : Prop := ∀ request, Spends (host request)

section

variable {host : Host} (answers : HostSpends host)

include answers

theorem spends_probe (probe : Probe) (args : List Ref) : Spends (probe.run host args) := by
  have count : ∀ n, Spends (Probe.count n) := fun n =>
    (spends_onHeap (Heap.drains_alloc _)).bind fun r => drains_pure _
  cases probe with
  | collect => exact (drains_modifyGet _).bind fun cycle => count _
  | backtrace => exact (drains_modify _).bind fun _ => drains_pure _
  | depth => exact Drains.get fun m => count _
  | apply => exact (answers _).bind fun r => drains_pure _
  | functionOf =>
      refine Drains.get fun m => ?_
      split <;> exact drains_pure _
  | nothing => exact drains_pure _
  | eval => exact (answers _).bind fun r => drains_pure _

theorem spends_callNative (native : Native) (args : List Ref) :
    Spends (callNative host native args) := by
  refine (spends_checkArity _ _ _).bind fun _ => Drains.get fun m => ?_
  refine (spends_enter _).bind fun _ => Drains.bind ?_ fun value => ?_
  · cases native with
    | builtin builtin => exact (Builtin.spends_run builtin args).bind fun r => drains_pure _
    | probe probe => exact spends_probe answers probe args
  · cases value with
    | none => exact (drains_pure ()).bind fun _ => spends_giveBack
    | some value => exact (drains_modify _).bind fun _ => spends_giveBack

theorem spends_invoke (callee : Ref) (args : List Ref) : Spends (invoke host callee args) := by
  refine Drains.get fun m => ?_
  split
  · exact spends_callNative answers _ args
  · exact spends_callCode _ args
  · exact spends_fail rfl
  · exact spends_fail rfl

/-! ## Runs -/

theorem spends_callOnStack (count : Nat) : Spends (callOnStack host count) := by
  intro m e m' failed lacks
  unfold callOnStack at failed
  split at failed
  · exact spends_invoke answers _ _ _ e m' failed lacks
  · cases failed
    cases lacks

theorem spends_execute (code : Code) (pc : Nat) (op : Opcode) (operand : Nat) :
    Spends (execute host code pc op operand) := by
  cases op with
  | pushNull => exact drains_modify _
  | pushConstant => exact spends_pushOr _ fun _ => rfl
  | loadLocal =>
      exact fun m => @spends_pushOr m.top.locals[operand]?
        (fun _ => .invalidOperand .loadLocal operand pc) (fun _ => rfl) m
  | storeLocal =>
      refine spends_pop.bind fun value m e m' failed lacks => ?_
      unfold setVariable at failed
      split at failed <;> cases failed
      cases lacks
  | loadModuleValue =>
      refine (spends_popSymbol _).bind fun symbol => Drains.get fun m => ?_
      exact spends_pushOr _ fun _ => rfl
  | loadModuleFunction =>
      refine (spends_popSymbol _).bind fun symbol => Drains.get fun m => ?_
      exact spends_pushOr _ fun _ => rfl
  | branch => exact drains_modify _
  | branchIfNull =>
      refine spends_pop.bind fun value => ?_
      split
      · exact drains_modify _
      · exact drains_pure ()
  | call => exact spends_callOnStack answers operand
  | ret => exact spends_giveBack
  | pop => exact spends_pop.bind fun value => drains_pure ()

theorem spends_step : Spends (step host) := by
  intro m e m' failed lacks
  unfold step at failed
  split at failed
  · split at failed
    · next fetched =>
        cases failed
        simp [Stop.Tells, fetch_error fetched] at lacks
    · exact spends_execute answers _ _ _ _ _ e m' failed lacks
  · cases failed
    cases lacks

/-- The induction is on the fuel; no step fails for want of a cell but in a heap without
    room. -/
theorem spends_run (floor fuel : Nat) : Spends (run host floor fuel) := by
  induction fuel with
  | zero =>
      rintro m e m' ⟨⟩ lacks
      cases lacks
  | succ fuel ih =>
      intro m e m' failed lacks
      rw [run_succ] at failed
      split at failed
      · exact (spends_step answers).bind (fun _ => ih) m e m' failed lacks
      · cases failed

theorem spends_callOut (fuel : Nat) {enterCall : Action RuntimeError Unit}
    (enters : Spends enterCall) : Spends (callOut host fuel enterCall) := by
  intro m e m' failed lacks
  have drives : Spends (do enter (.waiting m.top.home); enterCall; run host (m.depth + 1) fuel) :=
    (spends_enter _).bind fun _ => enters.bind fun _ => spends_run answers _ fuel
  have kept : ∀ n : Machine, (n.truncate m.depth).heap = n.heap := fun n =>
    (congrArg Machine.heap (truncate_bare n m.depth)).symm
  rw [callOut_apply] at failed
  cases ran : driven host fuel enterCall m with
  | error e₁ m₁ =>
      rw [ran] at failed
      cases failed
      rw [kept]
      exact drives m e m₁ ran lacks
  | ok _ m₁ =>
      rw [ran] at failed
      dsimp only at failed
      split at failed <;> cases failed
      cases lacks

theorem spends_applyWith (fuel : Nat) (callee : Ref) (args : List Ref) :
    Spends (applyWith host fuel callee args) :=
  spends_callOut answers fuel (spends_invoke answers callee args)

theorem spends_expandWith (fuel : Nat) (code : Code) (args : List Ref) :
    Spends (expandWith host fuel code args) :=
  spends_callOut answers fuel (spends_callCode code args)

end

end Machine

end LispMachine
