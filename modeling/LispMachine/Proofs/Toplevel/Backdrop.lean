import LispMachine.Proofs.Compiler.Backdrop
import LispMachine.Proofs.Toplevel.Isolation

/-!
# Forms before a backdrop

Evaluating a form does not look at what else is parked on the bottom work stack, nor at the
text printed before. So every form can be evaluated with any work stack below it and with
nothing printed yet, and what it comes to can be put back before what was there.
-/

namespace LispMachine

namespace Machine

section

variable {ε α : Type} {b : Backdrop} {m m' : Machine}

theorem oblivious_onStore (f : HeapError → ε) (action : EStateM HeapError Store α)
    (kept : ∀ m : Machine, m.Ready → (after (onStore f action m)).Ready) :
    Oblivious (against b) Ready (onStore f action) := by
  intro m ready
  refine ⟨?_, kept m ready⟩
  have same : (m.against b).store = m.store := rfl
  simp only [onStore, same]
  cases action m.store <;> rfl

theorem oblivious_allocScalar (f : HeapError → ε) {s : Scalar}
    (plain : ∀ probe, s ≠ .native (.probe probe)) :
    Oblivious (against b) Ready (onHeap f (Heap.allocScalar s)) :=
  oblivious_onStore f _ fun _ ready => (kept_allocScalar f (Undisturbed.refl ready).kept plain).ready

theorem oblivious_intern (f : HeapError → ε) (name : String) :
    Oblivious (against b) Ready (intern f name) :=
  oblivious_onStore f _ fun _ ready => (kept_intern f name (Undisturbed.refl ready).kept).ready

/-- A change of the modules. -/
theorem oblivious_registry {change : Machine → Machine}
    (same : ∀ m : Machine, change (m.against b) = (change m).against b)
    (heap : ∀ m, (change m).heap = m.heap) :
    Oblivious (against b) Ready (modify change : EStateM ε Machine PUnit) :=
  oblivious_modify same fun m ready =>
    ⟨by rw [heap]; exact ready.wellFormed, by rw [heap]; exact ready.plain⟩

theorem oblivious_note (level : NoteLevel) {text : Machine → String}
    (same : ∀ m : Machine, text (m.against b) = text m) :
    Oblivious (against b) Ready (modify fun m => m.note level text : EStateM ε Machine PUnit) := by
  refine oblivious_modify (fun m => (against_note b m level (same m)).symm) fun m ready => ?_
  obtain ⟨journal, noted⟩ := note_eq m level text
  rw [noted]
  exact ready.of_bare rfl

theorem oblivious_installNatives (f : HeapError → ε) (id : ModuleId) (builtins : List Builtin) :
    Oblivious (against b) Ready (installNatives f id (builtins.map Native.builtin)) := by
  induction builtins with
  | nil => exact oblivious_pure _
  | cons builtin rest ih =>
      refine Oblivious.bind ?_ fun _ => ih
      refine (oblivious_intern f _).bind fun name => ?_
      refine (oblivious_allocScalar f (by simp)).bind fun cell => ?_
      exact oblivious_registry (fun _ => rfl) fun _ => rfl

theorem oblivious_createModule (f : HeapError → ε) (name : Ref) :
    Oblivious (against b) Ready (createModule f name) := by
  intro m ready
  have made := (kept_allocScalar f (s := .moduleCell m.registry.size) (Undisturbed.refl ready).kept
    (by simp)).ready
  have same : (m.against b).heap = m.heap ∧ (m.against b).registry = m.registry := ⟨rfl, rfl⟩
  rw [onHeap_apply, Heap.allocScalar] at made
  rw [createModule_apply, createModule_apply, same.1, same.2]
  cases done : Heap.alloc (.scalar (.moduleCell m.registry.size)) m.heap with
  | ok cell heap =>
      rw [done] at made
      exact ⟨rfl, made.wellFormed, made.plain⟩
  | error e heap =>
      rw [done] at made
      exact ⟨rfl, made⟩

theorem oblivious_ensureModule (f : HeapError → ε) (name : Ref) :
    Oblivious (against b) Ready (ensureModule f name) := by
  refine Oblivious.get (fun _ => rfl) fun m => ?_
  split
  · exact oblivious_pure _
  · refine (oblivious_createModule f name).bind fun id => ?_
    refine (oblivious_installNatives f id _).bind fun _ => ?_
    refine Oblivious.bind ?_ fun _ => (oblivious_note .debug fun _ => rfl).bind fun _ => oblivious_pure _
    exact oblivious_registry (fun _ => rfl) fun _ => rfl

end

/-! ## Forms -/

section

variable {α : Type} {b : Backdrop} {m m' : Machine}

theorem oblivious_wrap {ε ε' : Type} (f : ε → ε') {action : Action ε α}
    (oblivious : Oblivious (against b) Ready action) : Oblivious (against b) Ready (wrap f action) := by
  intro m ready
  obtain ⟨same, kept⟩ := oblivious m ready
  refine ⟨?_, by rwa [after_wrap]⟩
  simp only [wrap, same]
  cases action m <;> rfl

theorem oblivious_malformed (form : Ref) :
    Oblivious (against b) Ready (malformedDefinition form : Action EvalError α) :=
  fun _ ready => ⟨rfl, ready⟩

theorem oblivious_definitionParts (form : Ref) : Oblivious (against b) Ready (definitionParts form) := by
  intro m ready
  have same : (m.against b).heap = m.heap := rfl
  simp only [definitionParts, same]
  split
  · exact ⟨rfl, ready⟩
  · split
    · exact ⟨rfl, ready⟩
    · exact oblivious_malformed form m ready

theorem oblivious_expectName (name : Ref) (context : String) :
    Oblivious (against b) Ready (expectName name context) := by
  intro m ready
  have same : (m.against b).heap = m.heap := rfl
  simp only [expectName, same]
  split <;> exact ⟨rfl, ready⟩

theorem define_against (home : ModuleId) (name cell : Ref) (m : Machine) :
    define home name cell (m.against b) = (define home name cell m).against b := by
  have known : (m.against b).registry = m.registry := rfl
  have bound : (m.against b).bindFunction home name cell = (m.bindFunction home name cell).against b := rfl
  simp only [define, known, bound]
  generalize m.bindFunction home name cell = m₁
  have noted : (if (m.registry.function? home name).isSome then
        (m₁.against b).note .warn fun m => s!"redefining {m.display name}" else m₁.against b) =
      (if (m.registry.function? home name).isSome then
        m₁.note .warn fun m => s!"redefining {m.display name}" else m₁).against b := by
    split
    · exact (against_note b m₁ .warn rfl).symm
    · rfl
  rw [noted, ← against_note b _ .debug rfl]
  generalize Machine.note _ .debug _ = m₂
  have listed : (m₂.against b).defined = m₂.defined := rfl
  rw [listed]
  split <;> rfl

theorem oblivious_define (home : ModuleId) (name cell : Ref) :
    Oblivious (against b) Ready (modify (define home name cell) : Action EvalError PUnit) := by
  refine oblivious_modify (define_against home name cell) fun m ready => ?_
  obtain ⟨journal, eq⟩ := define_eq home name cell m
  rw [eq]
  exact ⟨ready.wellFormed, ready.plain⟩

theorem oblivious_evalDefinition (host : Host) (fuel : Nat) {wrapCode : Code → Scalar}
    (plain : ∀ code probe, wrapCode code ≠ .native (.probe probe)) (home : ModuleId) (form : Ref) :
    Oblivious (against b) Ready (evalDefinition host fuel wrapCode home form) := by
  refine (oblivious_definitionParts form).bind fun parts => ?_
  split
  · refine (oblivious_expectName _ _).bind fun _ => ?_
    have compiled := Compile.oblivious_function (oblivious_expandWith b host fuel) fuel home
    refine (oblivious_wrap _ (compiled _ _ _)).bind fun code => ?_
    refine (oblivious_allocScalar _ (plain code)).bind fun cell => ?_
    exact (oblivious_define home _ cell).bind fun _ => oblivious_pure _
  · exact oblivious_malformed form

theorem oblivious_evalExpression (host : Host) (fuel : Nat) (home : ModuleId) (form : Ref) :
    Oblivious (against b) Ready (evalExpression host fuel home form) := by
  have compiled := Compile.oblivious_toplevel (oblivious_expandWith b host fuel) fuel home form
  refine (oblivious_wrap _ compiled).bind fun code => ?_
  refine (oblivious_allocScalar _ (by simp)).bind fun cell => ?_
  exact oblivious_wrap _ (oblivious_applyWith b host fuel cell [])

theorem oblivious_defineVariable (home : ModuleId) (name value : Ref) :
    Oblivious (against b) Ready (defineVariable home name value) := by
  refine Oblivious.bind ?_ fun _ => (oblivious_note .debug fun _ => rfl).bind fun _ => oblivious_pure _
  exact oblivious_registry (fun _ => rfl) fun _ => rfl

theorem oblivious_evalVariable (host : Host) (fuel : Nat) (home : ModuleId) (form : Ref) :
    Oblivious (against b) Ready (evalVariable host fuel home form) := by
  refine (oblivious_definitionParts form).bind fun parts => ?_
  split
  · exact (oblivious_expectName _ _).bind fun _ => oblivious_defineVariable home _ _
  · refine (oblivious_expectName _ _).bind fun _ => ?_
    exact (oblivious_evalExpression host fuel home _).bind fun _ => oblivious_defineVariable home _ _
  · exact oblivious_malformed form

theorem oblivious_evalEach {evalForm : Ref → Action EvalError Ref}
    (each : ∀ form, Oblivious (against b) Ready (evalForm form)) (forms : List Ref) :
    Oblivious (against b) Ready (evalEach evalForm forms) := by
  induction forms with
  | nil => exact oblivious_pure _
  | cons form rest ih => exact (each form).bind fun _ => ih

theorem oblivious_evalModule {evalIn : ModuleId → Ref → Action EvalError Ref}
    (each : ∀ id form, Oblivious (against b) Ready (evalIn id form)) (form : Ref) :
    Oblivious (against b) Ready (evalModule evalIn form) := by
  refine (oblivious_definitionParts form).bind fun parts => ?_
  split
  · refine Oblivious.get (fun _ => rfl) fun m => ?_
    split
    · refine (oblivious_ensureModule _ _).bind fun id => ?_
      refine (oblivious_evalEach (each id) _).bind fun _ => ?_
      exact Oblivious.get (fun _ => rfl) fun m => oblivious_pure _
    · exact oblivious_malformed form
  · exact oblivious_malformed form

/-- A form of any kind. -/
theorem oblivious_evalIn (b : Backdrop) (host : Host) (fuel : Nat) (home : ModuleId) (form : Ref) :
    Oblivious (against b) Ready (evalIn host fuel home form) := by
  induction fuel generalizing home form with
  | zero => exact oblivious_throw _
  | succ fuel ih =>
      refine Oblivious.get (fun _ => rfl) fun m => ?_
      split
      · exact oblivious_evalDefinition host fuel (by simp) home form
      · exact oblivious_evalDefinition host fuel (by simp) home form
      · exact oblivious_evalVariable host fuel home form
      · exact oblivious_evalModule (fun id form => ih id form) form
      · exact oblivious_evalExpression host fuel home form

end

/-! ## Whole forms -/

section

variable {m : Machine}

/-- The machine with another work stack and nothing printed yet. -/
def alone (stack : List Ref) (m : Machine) : Machine :=
  { m with top := { m.top with stack := stack }, output := "" }

/-- The machine at rest again, after it was evaluated as another machine that was left
    alone. -/
def resume (m m' : Machine) : Machine := { m' with top := m.top, output := m.output ++ m'.output }

/-- Evaluating a form in a module, with a note of a failure. -/
def evalNoted (host : Host) (fuel : Nat) (home : ModuleId) (form : Ref) : Action EvalError Ref := fun m =>
  match evalIn host fuel home form m with
  | .ok value m => .ok value m
  | .error e m => .error e (m.noteFailure e)

theorem alone_against (idle : m.callers = #[]) (stack : List Ref) :
    (m.alone stack).against ⟨m.top.stack, m.output⟩ = m := by
  rw [against_idle _ (show (m.alone stack).callers = #[] from idle)]
  simp [alone]

theorem noteFailure_against (b : Backdrop) (idle : m.callers = #[]) (e : Stop EvalError) :
    (m.against b).noteFailure e = (m.noteFailure e).against b := by
  cases e with
  | outOfFuel => rfl
  | failed error =>
      -- With the bottom frame alone there are no lines to note.
      have plain : ∀ m : Machine, m.callers = #[] → m.backtrace = [] := by
        intro m idle
        simp [backtrace, frames, idle]
      have idle' : (m.against b).callers = #[] := by simp [against, idle]
      obtain ⟨journal, noted⟩ := note_eq m .debug fun _ => s!"evaluation failed: {error.message}"
      obtain ⟨journal', noted'⟩ := note_eq (m.against b) .debug
        fun _ => s!"evaluation failed: {error.message}"
      have same := @against_note b m .debug (fun _ => s!"evaluation failed: {error.message}") rfl
      have none : (m.note .debug fun _ => s!"evaluation failed: {error.message}").backtrace = [] := by
        rw [noted]
        exact plain _ idle
      have none' : ((m.against b).note .debug
          fun _ => s!"evaluation failed: {error.message}").backtrace = [] := by
        rw [noted']
        exact plain _ idle'
      simp only [noteFailure, none, none', List.foldl_nil, ite_self, same]

theorem collectIfDue_output (m : Machine) : m.collectIfDue.output = m.output := by
  unfold collectIfDue
  split
  · obtain ⟨journal, collected⟩ := collectGarbage_eq m
    rw [collected]
    rfl
  · rfl

theorem Ready.alone (ready : m.Ready) (stack : List Ref) : (m.alone stack).Ready :=
  ⟨ready.wellFormed, ready.plain⟩

/-- A machine that was left alone, put back before what was there. -/
theorem against_unwindTo {p q : Machine} {form : Ref} (idle : m.callers = #[])
    (frames : (m.withTop (m.top.push form)).SameFrames p) (stack : List Ref)
    (kept : (p.alone stack).SameFrames q) :
    (q.against ⟨p.top.stack, m.output⟩).unwindTo m.top.stack.length = m.resume q := by
  have idle₁ : p.callers = #[] := frames.callers.trans idle
  have idle₂ : q.callers = #[] := kept.callers.trans idle₁
  have top : (q.against ⟨p.top.stack, m.output⟩).top = p.top := by
    rw [against_idle _ idle₂]
    dsimp only
    rw [kept.top]
    rfl
  rw [unwindTo_pushed idle ⟨top.trans frames.top, ?_⟩, against_idle _ idle₂]
  · rfl
  · rw [against_idle _ idle₂]
    exact idle₂.trans idle.symm

/-- A form may be evaluated with any other work stack below it and with nothing printed yet. -/
theorem evalFormWith_alone (host : Host) (fuel : Nat) (form : Ref) (idle : m.callers = #[])
    (ready : m.Ready) (stack : List Ref) :
    evalFormWith host fuel form m =
      mapState m.resume (evalNoted host fuel m.user form
        ((m.withTop (m.top.push form)).collectIfDue.alone stack)) := by
  have prepared := prepared_collectIfDue idle ready form
  have printed := collectIfDue_output (m.withTop (m.top.push form))
  unfold evalFormWith evalNoted
  rw [bottom_idle idle]
  dsimp only
  rw [modifyBottom_push idle] at prepared ⊢
  generalize (m.withTop (m.top.push form)).collectIfDue = p at prepared printed ⊢
  have idle₁ : p.callers = #[] := prepared.frames.callers.trans idle
  have ready₁ := prepared.ready.alone stack
  have ran := (oblivious_evalIn ⟨p.top.stack, p.output⟩ host fuel m.user form _ ready₁).1
  have kept := kept_evalIn host fuel m.user form ready₁
  rw [alone_against idle₁, printed] at ran
  rw [prepared.user, ran]
  cases done : evalIn host fuel m.user form (p.alone stack) with
  | ok value q =>
      rw [done] at kept
      exact congrArg (EStateM.Result.ok value) (against_unwindTo idle prepared.frames stack kept.frames)
  | error e q =>
      rw [done] at kept
      have idle₂ : q.callers = #[] := kept.frames.callers.trans idle₁
      obtain ⟨journal, noted⟩ := noteFailure_eq e q
      simp only [mapState_error, noteFailure_against _ idle₂]
      refine congrArg (EStateM.Result.error e) (against_unwindTo idle prepared.frames stack ?_)
      rw [noted]
      exact ⟨kept.frames.top, kept.frames.callers⟩

end

end Machine

end LispMachine
