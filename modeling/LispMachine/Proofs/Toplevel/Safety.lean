import LispMachine.Proofs.Toplevel.Development

/-!
# No evaluation goes wrong

Reading, compiling and running develop an orderly machine, and collecting keeps it
orderly. So in every state that a fresh machine reaches by evaluating texts, no form ends
in a fault.
-/

namespace LispMachine

/-- A failure that tells of broken code. -/
def EvalError.isFault : EvalError → Bool
  | .read _ => false
  | .compile error => error.isFault
  | .runtime error => error.isFault

/-- The end of an evaluation without a fault. -/
def Stop.Harmless : Stop EvalError → Prop
  | .failed error => error.isFault = false
  | .outOfFuel => True

/-! ## Reading -/

/-- Reading a form changes the store only, and only adds to it. -/
theorem Machine.readForm_grows (reader : Reader) {m : Machine} (sound : m.store.Sound) :
    ∃ s, (readForm reader m).2.2 = { m with store := s } ∧ m.store.Grows s := by
  have step := Reader.readFrom_grows reader.length [] reader.ahead m.store sound
  unfold readForm Reader.read
  dsimp only
  cases done : Reader.readFrom reader.length [] reader.ahead m.store <;> rw [done] at step <;>
    exact ⟨_, rfl, step⟩

theorem Machine.readForm_develops (reader : Reader) {m : Machine} (orderly : m.Orderly) :
    m.Develops (readForm reader m).2.2 := by
  obtain ⟨s, changed, grows⟩ := readForm_grows reader orderly.store
  rw [changed]
  exact orderly.withStore grows

/-! ## Machines -/

namespace Machine

/-- The result of a computation that develops the machine and fails in a harmless way
    only. -/
def Guarded {ε α : Type} (harmless : ε → Prop) (m : Machine) : EStateM.Result ε Machine α → Prop
  | .ok _ m' => m.Develops m'
  | .error e m' => m.Develops m' ∧ harmless e

section

variable {ε α β : Type} {harmless : ε → Prop} {m : Machine}

theorem Guarded.develops {r : EStateM.Result ε Machine α} (guarded : Guarded harmless m r) :
    m.Develops (after r) := by
  cases r with
  | ok _ _ => exact guarded
  | error _ _ => exact guarded.1

theorem Guarded.trans {m' : Machine} {r : EStateM.Result ε Machine α} (develops : m.Develops m')
    (guarded : Guarded harmless m' r) : Guarded harmless m r := by
  cases r with
  | ok _ _ => exact develops.trans guarded
  | error _ _ => exact ⟨develops.trans guarded.1, guarded.2⟩

theorem Guarded.bind {action : EStateM ε Machine α} {next : α → EStateM ε Machine β}
    (first : Guarded harmless m (action m))
    (second : ∀ a m', action m = .ok a m' → m.Develops m' → Guarded harmless m' (next a m')) :
    Guarded harmless m ((action >>= next) m) := by
  rw [bind_apply]
  cases done : action m with
  | ok a m' =>
      rw [done] at first
      exact (second a m' done first).trans first
  | error e m' =>
      rw [done] at first
      exact first

/-- Allocation of a scalar that may join and stands for no name. -/
theorem guarded_alloc {f : HeapError → ε} (errors : ∀ e, harmless (f e)) {s : Scalar}
    (orderly : m.Orderly) (joins : (Cell.scalar s).Joins m.heap) (other : s.isRegistered = false) :
    Guarded harmless m (onHeap f (Heap.alloc (.scalar s)) m) := by
  have step := orderly.alloc joins (by rintro _ ⟨⟩; exact other)
  rw [onHeap_apply]
  cases done : Heap.alloc (.scalar s) m.heap with
  | ok r heap =>
      rw [done] at step
      exact step
  | error e heap =>
      rw [done] at step
      exact ⟨step, errors e⟩

theorem guarded_intern {f : HeapError → ε} (errors : ∀ e, harmless (f e)) (orderly : m.Orderly)
    (name : String) : Guarded harmless m (intern f name m) := by
  have step := orderly.withStore (Store.secure_intern name m.store orderly.store)
  simp only [intern, onStore]
  cases done : Store.intern name m.store with
  | ok r heap =>
      rw [done] at step
      exact step
  | error e heap =>
      rw [done] at step
      exact ⟨step, errors e⟩

/-- An interned name is that of a symbol. -/
theorem intern_ok {f : HeapError → ε} {name : String} {r : Ref} {m' : Machine}
    (sound : m.store.Sound) (done : intern f name m = .ok r m') :
    m'.heap.symbol? r = some name := by
  unfold intern onStore at done
  dsimp only at done
  cases made : Store.intern name m.store with
  | ok cell s =>
      rw [made] at done
      cases done
      exact Store.intern_ok sound made
  | error e s =>
      rw [made] at done
      cases done

theorem guarded_installNatives {f : HeapError → ε} (errors : ∀ e, harmless (f e)) (id : ModuleId)
    (builtins : List Builtin) (orderly : m.Orderly) :
    Guarded harmless m (installNatives f id (builtins.map Native.builtin) m) := by
  induction builtins generalizing m with
  | nil => exact orderly.refl
  | cons builtin rest ih =>
      refine Guarded.bind ?_ fun _ m' _ develops => ih develops.orderly
      refine (guarded_intern errors orderly _).bind fun name m₁ _ step₁ => ?_
      have joins : (Cell.scalar (.native (.builtin builtin))).Joins m₁.heap :=
        Cell.joins_scalar (by simp) (by simp [Scalar.code?])
      refine (guarded_alloc errors step₁.orderly joins rfl).bind fun cell m₂ _ step₂ => ?_
      exact step₂.orderly.bindFunction id name cell

theorem createModule_apply (f : HeapError → ε) (name : Ref) (m : Machine) :
    createModule f name m =
      match Heap.alloc (.scalar (.moduleCell m.registry.size)) m.heap with
      | .ok cell heap =>
          .ok m.registry.size { m.withHeap heap with registry := m.registry.add name cell }
      | .error e heap => .error (f e) (m.withHeap heap) := by
  simp only [createModule, bind_apply, get_apply, Registry.create, onHeap_apply, Heap.allocScalar]
  cases Heap.alloc (.scalar (.moduleCell m.registry.size)) m.heap <;> rfl

theorem guarded_createModule {f : HeapError → ε} (errors : ∀ e, harmless (f e)) {name : Ref}
    (orderly : m.Orderly) (symbol : m.heap.isSymbol name = true) :
    Guarded harmless m (createModule f name m) := by
  rw [createModule_apply]
  rcases @Heap.alloc_cases m.heap (.scalar (.moduleCell m.registry.size)) orderly.heap.wellFormed rfl
    with ⟨cell, heap, done, allocated⟩ | ⟨failed, _⟩
  · rw [done]
    exact orderly.create symbol allocated
  · rw [failed]
    exact ⟨orderly.refl, errors _⟩

theorem createModule_ok {f : HeapError → ε} {name : Ref} {id : ModuleId} {m' : Machine}
    (done : createModule f name m = .ok id m') : id < m'.registry.size := by
  rw [createModule_apply] at done
  cases made : Heap.alloc (.scalar (.moduleCell m.registry.size)) m.heap with
  | ok cell heap =>
      rw [made] at done
      cases done
      simp
  | error e heap =>
      rw [made] at done
      cases done

theorem Orderly.note (orderly : m.Orderly) (level : NoteLevel) (text : Machine → String) :
    m.Develops (m.note level text) := by
  obtain ⟨journal, noted⟩ := note_eq m level text
  rw [noted]
  exact orderly.of_bare rfl

theorem guarded_ensureModule {f : HeapError → ε} (errors : ∀ e, harmless (f e)) {name : Ref}
    (orderly : m.Orderly) (symbol : m.heap.isSymbol name = true) :
    Guarded harmless m (ensureModule f name m) := by
  unfold ensureModule
  rw [bind_apply, get_apply]
  dsimp only
  cases m.registry.find? name with
  | some id => exact orderly.refl
  | none =>
      refine (guarded_createModule errors orderly symbol).bind fun id m₁ _ step₁ => ?_
      refine (guarded_installNatives errors id _ step₁.orderly).bind fun _ m₂ _ step₂ => ?_
      simp only [bind_apply, modify_apply, pure_apply, Guarded]
      have bound := step₂.orderly.bindValue id m₂.truth m₂.truth
      exact bound.trans (bound.orderly.note _ _)

/-- The module that is found or created is there. -/
theorem ensureModule_ok {f : HeapError → ε} {name : Ref} {id : ModuleId} {m' : Machine}
    (orderly : m.Orderly) (symbol : m.heap.isSymbol name = true)
    (done : ensureModule f name m = .ok id m') : id < m'.registry.size := by
  unfold ensureModule at done
  rw [bind_apply, get_apply] at done
  dsimp only at done
  cases found : m.registry.find? name with
  | some id' =>
      rw [found] at done
      cases done
      exact orderly.modules.find? found
  | none =>
      rw [found] at done
      obtain ⟨id₁, m₁, created, rest₁⟩ := bind_eq_ok done
      obtain ⟨_, m₂, installed, rest₂⟩ := bind_eq_ok rest₁
      have step₁ := (@guarded_createModule ε (fun _ => True) m f (fun _ => trivial) name orderly symbol)
      rw [created] at step₁
      have step₂ := @guarded_installNatives ε (fun _ => True) m₁ f (fun _ => trivial) id₁ Builtin.all
        step₁.orderly
      rw [installed] at step₂
      have bound := step₂.orderly.bindValue id₁ m₂.truth m₂.truth
      have noted := bound.orderly.note .debug fun m => s!"created module {m.display name}"
      have known := createModule_ok created
      simp only [bind_apply, modify_apply, pure_apply] at rest₂
      cases rest₂
      exact Nat.lt_of_lt_of_le known (Nat.le_trans step₂.size (bound.trans noted).size)

end

/-! ## Top-level forms -/

section

variable {m : Machine}

theorem harmless_ofHeap (e : HeapError) : Stop.Harmless (EvalError.ofHeap e) := rfl

theorem guarded_malformed {α : Type} (form : Ref) (orderly : m.Orderly) :
    Guarded Stop.Harmless m (malformedDefinition form m : EStateM.Result _ _ α) :=
  ⟨orderly.refl, rfl⟩

theorem guarded_definitionParts (form : Ref) (orderly : m.Orderly) :
    Guarded Stop.Harmless m (definitionParts form m) := by
  unfold definitionParts
  split
  · exact orderly.refl
  · split
    · exact ⟨orderly.refl, trivial⟩
    · exact guarded_malformed form orderly

theorem guarded_expectName (name : Ref) (context : String) (orderly : m.Orderly) :
    Guarded Stop.Harmless m (expectName name context m) := by
  unfold expectName
  split
  · exact orderly.refl
  · exact ⟨orderly.refl, rfl⟩

/-- A definition binds a function and records the name, unless it is recorded already;
    besides, it may write to the journal. -/
theorem define_eq (home : ModuleId) (name cell : Ref) (m : Machine) :
    ∃ journal, define home name cell m =
      { m.bindFunction home name cell with
        defined := if m.defined.contains (home, name) then m.defined
          else m.defined.push (home, name)
        journal := journal } := by
  obtain ⟨first, noted⟩ := noteIf_eq (m.bindFunction home name cell)
    (m.registry.function? home name).isSome .warn fun m => s!"redefining {m.display name}"
  obtain ⟨second, noted'⟩ := note_eq ((m.bindFunction home name cell).withJournal first) .debug
    fun m => s!"defined {m.display cell}"
  unfold define
  dsimp only
  rw [noted, noted']
  refine ⟨second, ?_⟩
  change (if m.defined.contains (home, name) = true then _ else _) = _
  by_cases known : m.defined.contains (home, name) = true
  · simp only [if_pos known]
    rfl
  · simp only [if_neg known]
    rfl

theorem Orderly.define (orderly : m.Orderly) {home : ModuleId} (known : home < m.registry.size)
    (name cell : Ref) : m.Develops (define home name cell m) := by
  obtain ⟨journal, eq⟩ := define_eq home name cell m
  have bound := orderly.bindFunction home name cell
  rw [eq]
  have names := bound.names
  refine ⟨⟨bound.orderly.store, bound.orderly.modules, fun p member => ?_⟩, bound.kept,
    ⟨names.store, names.size, names.called, names.modules⟩, bound.user⟩
  dsimp only at member
  split at member
  · exact bound.orderly.defined p member
  · rcases Array.mem_push.1 member with old | rfl
    · exact bound.orderly.defined p old
    · simp [Machine.bindFunction, Registry.function?_bindFunction, known]

theorem guarded_wrap {ε α : Type} (isFault : ε → Bool) {f : ε → EvalError} {action : Action ε α}
    (same : ∀ e, (f e).isFault = isFault e) (orderly : m.Orderly)
    (grows : m.Grows (after (action m))) (faultless : Faultless isFault (action m)) :
    Guarded Stop.Harmless m (wrap f action m) := by
  have develops := orderly.grows grows
  unfold wrap
  cases done : action m with
  | ok code m' =>
      rw [done] at develops
      exact develops
  | error e m' =>
      rw [done] at develops faultless
      cases e with
      | failed error => exact ⟨develops, (same error).trans faultless⟩
      | outOfFuel => exact ⟨develops, trivial⟩

theorem wrap_ok {ε ε' α : Type} {f : ε → ε'} {action : Action ε α} {value : α} {m m' : Machine}
    (done : wrap f action m = .ok value m') : action m = .ok value m' := by
  unfold wrap at done
  cases ran : action m with
  | ok value m' =>
      rw [ran] at done
      cases done
      rfl
  | error e m' =>
      rw [ran] at done
      cases done

theorem guarded_evalDefinition (host : Host) (fuel : Nat) {wrapCode : Code → Scalar}
    (plain : ∀ code probe, wrapCode code ≠ .native (.probe probe))
    (coded : ∀ code, (wrapCode code).code? = some code)
    (other : ∀ code, (wrapCode code).isRegistered = false) {home : ModuleId} (form : Ref)
    (orderly : m.Orderly) (known : home < m.registry.size) :
    Guarded Stop.Harmless m (evalDefinition host fuel wrapCode home form m) := by
  refine (guarded_definitionParts form orderly).bind fun parts m₁ _ step₁ => ?_
  split
  · refine (guarded_expectName _ _ step₁.orderly).bind fun _ m₂ _ step₂ => ?_
    have safe₂ := step₂.orderly.heap
    have tame := Compile.function_tame (expandWith_safe host fuel) safe₂ fuel home
    refine (guarded_wrap CompileError.isFault (fun _ => rfl) step₂.orderly (tame _ _ _).1
      (tame _ _ _).2).bind fun code m₃ compiled step₃ => ?_
    have sound := Compile.function_sound safe₂ (wrap_ok compiled)
    have joins : (Cell.scalar (wrapCode code)).Joins m₃.heap := by
      refine Cell.joins_scalar (plain code) fun code' found => ?_
      rw [coded] at found
      cases found
      exact sound
    refine (guarded_alloc harmless_ofHeap step₃.orderly joins (other code)).bind fun cell m₄ _ step₄ => ?_
    simp only [bind_apply, modify_apply, pure_apply, Guarded]
    have steps := ((step₁.trans step₂).trans step₃).trans step₄
    exact step₄.orderly.define (Nat.lt_of_lt_of_le known steps.size) _ cell
  · exact guarded_malformed form step₁.orderly

theorem guarded_evalExpression (host : Host) (fuel : Nat) (home : ModuleId) (form : Ref)
    (orderly : m.Orderly) : Guarded Stop.Harmless m (evalExpression host fuel home form m) := by
  have tame := Compile.toplevel_tame (expandWith_safe host fuel) orderly.heap fuel home form
  refine (guarded_wrap CompileError.isFault (fun _ => rfl) orderly tame.1 tame.2).bind
    fun code m₁ compiled step₁ => ?_
  have sound := Compile.toplevel_sound orderly.heap (wrap_ok compiled)
  have joins : (Cell.scalar (.function code)).Joins m₁.heap := by
    refine Cell.joins_scalar (by simp) ?_
    rintro code' ⟨⟩
    exact sound
  refine (guarded_alloc harmless_ofHeap step₁.orderly joins rfl).bind fun cell m₂ _ step₂ => ?_
  have safe₂ := step₂.orderly.heap
  exact guarded_wrap RuntimeError.isFault (fun _ => rfl) step₂.orderly (applyWith_grows host fuel cell [] safe₂.ready)
    (applyWith_faultless host fuel cell [] safe₂)

theorem guarded_defineVariable (home : ModuleId) (name value : Ref) (orderly : m.Orderly) :
    Guarded Stop.Harmless m (defineVariable home name value m) := by
  simp only [defineVariable, bind_apply, modify_apply, pure_apply, Guarded]
  have bound := orderly.bindValue home name value
  exact bound.trans (bound.orderly.note _ _)

theorem guarded_evalVariable (host : Host) (fuel : Nat) (home : ModuleId) (form : Ref)
    (orderly : m.Orderly) : Guarded Stop.Harmless m (evalVariable host fuel home form m) := by
  refine (guarded_definitionParts form orderly).bind fun parts m₁ _ step₁ => ?_
  split
  · refine (guarded_expectName _ _ step₁.orderly).bind fun _ m₂ _ step₂ => ?_
    exact guarded_defineVariable home _ _ step₂.orderly
  · refine (guarded_expectName _ _ step₁.orderly).bind fun _ m₂ _ step₂ => ?_
    refine (guarded_evalExpression host fuel home _ step₂.orderly).bind fun value m₃ _ step₃ => ?_
    exact guarded_defineVariable home _ value step₃.orderly
  · exact guarded_malformed form step₁.orderly

theorem guarded_evalEach {evalForm : Ref → Action EvalError Ref} {id : ModuleId}
    (each : ∀ form (m : Machine), m.Orderly → id < m.registry.size →
      Guarded Stop.Harmless m (evalForm form m))
    (forms : List Ref) (orderly : m.Orderly) (known : id < m.registry.size) :
    Guarded Stop.Harmless m (evalEach evalForm forms m) := by
  induction forms generalizing m with
  | nil => exact orderly.refl
  | cons form rest ih =>
      refine (each form m orderly known).bind fun _ m₁ _ step₁ => ?_
      exact ih step₁.orderly (Nat.lt_of_lt_of_le known step₁.size)

theorem guarded_evalModule {evalIn : ModuleId → Ref → Action EvalError Ref}
    (each : ∀ id form (m : Machine), m.Orderly → id < m.registry.size →
      Guarded Stop.Harmless m (evalIn id form m))
    (form : Ref) (orderly : m.Orderly) : Guarded Stop.Harmless m (evalModule evalIn form m) := by
  refine (guarded_definitionParts form orderly).bind fun parts m₁ _ step₁ => ?_
  split
  · rw [bind_apply, get_apply]
    dsimp only
    split
    · next symbol =>
        refine (guarded_ensureModule harmless_ofHeap step₁.orderly symbol).bind fun id m₂ ensured step₂ => ?_
        have known := ensureModule_ok step₁.orderly symbol ensured
        exact (guarded_evalEach (each id) _ step₂.orderly known).bind fun _ m₃ _ step₃ =>
          step₃.orderly.refl
    · exact guarded_malformed form step₁.orderly
  · exact guarded_malformed form step₁.orderly

/-- Evaluating a form develops the machine and ends without a fault. -/
theorem guarded_evalIn (host : Host) (fuel : Nat) {home : ModuleId} (form : Ref)
    (orderly : m.Orderly) (known : home < m.registry.size) :
    Guarded Stop.Harmless m (evalIn host fuel home form m) := by
  induction fuel generalizing home form m with
  | zero => exact ⟨orderly.refl, trivial⟩
  | succ fuel ih =>
      unfold evalIn
      rw [bind_apply, get_apply]
      dsimp only
      generalize m.headKeyword? form = keyword
      split
      · exact guarded_evalDefinition host fuel (by simp) (fun _ => rfl) (fun _ => rfl) form orderly known
      · exact guarded_evalDefinition host fuel (by simp) (fun _ => rfl) (fun _ => rfl) form orderly known
      · exact guarded_evalVariable host fuel home form orderly
      · exact guarded_evalModule (fun id form m orderly known => ih form orderly known) form orderly
      · exact guarded_evalExpression host fuel home form orderly

/-! ## Texts -/

theorem modifyBottom_bare (m : Machine) (f : List Ref → List Ref) :
    m.bare = (m.modifyBottom f).bare := by
  unfold modifyBottom
  split <;> rfl

theorem unwindTo_bare (height : Nat) (m : Machine) : m.bare = (m.unwindTo height).bare :=
  (truncate_bare m 1).trans (modifyBottom_bare _ _)

/-- Notes about a failure go to the journal only. -/
theorem noteFailure_eq (e : Stop EvalError) (m : Machine) :
    ∃ journal, m.noteFailure e = m.withJournal journal := by
  have lines : ∀ (texts : List String) (m : Machine), ∃ journal,
      texts.foldl (fun m line => m.note .debug fun _ => s!"  {line}") m = m.withJournal journal := by
    intro texts
    induction texts with
    | nil => exact fun m => ⟨m.journal, rfl⟩
    | cons line texts ih =>
        intro m
        obtain ⟨first, noted⟩ := note_eq m .debug fun _ => s!"  {line}"
        obtain ⟨last, rest⟩ := ih (m.withJournal first)
        refine ⟨last, ?_⟩
        rw [List.foldl_cons, noted, rest]
        rfl
  cases e with
  | outOfFuel => exact ⟨m.journal, rfl⟩
  | failed error =>
      obtain ⟨first, noted⟩ := note_eq m .debug fun _ => s!"evaluation failed: {error.message}"
      simp only [noteFailure, noted]
      split
      · obtain ⟨last, rest⟩ := lines (m.withJournal first).backtrace (m.withJournal first)
        exact ⟨last, rest⟩
      · exact ⟨first, rfl⟩

theorem collectGarbage_eq (m : Machine) :
    ∃ journal, m.collectGarbage.2 = (m.withHeap (m.heap.collect m.roots).2).withJournal journal := by
  simp only [collectGarbage]
  exact note_eq ((m.withHeap (m.heap.collect m.roots).2).withJournal m.catchUp.journal) .debug _

theorem Safe.collectGarbage (safe : m.Safe) : m.collectGarbage.2.Safe := by
  obtain ⟨journal, collected⟩ := collectGarbage_eq m
  rw [collected]
  have swept : (m.withHeap (m.heap.collect m.roots).2).Safe := ⟨safe.toOrderly.collect, safe.user⟩
  exact (@Orderly.of_bare _ ((m.withHeap _).withJournal journal) swept.toOrderly rfl).safe swept

theorem Safe.collectIfDue (safe : m.Safe) : m.collectIfDue.Safe := by
  unfold Machine.collectIfDue
  split
  · exact safe.collectGarbage
  · exact safe

theorem Safe.modifyBottom (safe : m.Safe) (f : List Ref → List Ref) : (m.modifyBottom f).Safe :=
  (safe.toOrderly.of_bare (modifyBottom_bare m f)).safe safe

/-- From the collection on that may come first, a form develops the machine and ends
    without a fault. -/
theorem guarded_evalFormWith (host : Host) (fuel : Nat) (form : Ref) (safe : m.Safe) :
    Guarded Stop.Harmless (m.modifyBottom fun stack => form :: stack).collectIfDue
      (evalFormWith host fuel form m) := by
  have safe₁ := (safe.modifyBottom fun stack => form :: stack).collectIfDue
  have ran := guarded_evalIn host fuel form safe₁.toOrderly safe₁.user
  unfold evalFormWith
  dsimp only
  generalize (m.modifyBottom fun stack => form :: stack).collectIfDue = m₁ at ran ⊢
  cases done : evalIn host fuel m₁.user form m₁ with
  | ok value m₂ =>
      rw [done] at ran
      exact ran.develops.trans (ran.develops.orderly.of_bare (unwindTo_bare _ m₂))
  | error e m₂ =>
      rw [done] at ran
      obtain ⟨journal, noted⟩ := noteFailure_eq e m₂
      dsimp only
      rw [noted]
      refine ⟨ran.1.trans (ran.1.orderly.of_bare ?_), ran.2⟩
      exact unwindTo_bare _ (m₂.withJournal journal)

theorem Safe.evalFormWith (safe : m.Safe) (host : Host) (fuel : Nat) (form : Ref) :
    (after (evalFormWith host fuel form m)).Safe :=
  (guarded_evalFormWith host fuel form safe).develops.safe (safe.modifyBottom _).collectIfDue

theorem evalForms_safe (fuel count : Nat) (reader : Reader) {results results' : List FormResult}
    {m m' : Machine} (safe : m.Safe)
    (harmless : ∀ error, .error error ∈ results → error.isFault = false)
    (done : evalForms fuel count reader results m = some (results', m')) :
    m'.Safe ∧ ∀ error, .error error ∈ results' → error.isFault = false := by
  induction count generalizing reader results m with
  | zero =>
      cases done
      exact ⟨safe, harmless⟩
  | succ count ih =>
      have safe₁ := (readForm_develops reader safe.toOrderly).safe safe
      unfold evalForms at done
      rcases read : readForm reader m with ⟨outcome, reader₁, m₁⟩
      rw [read] at done safe₁
      rcases outcome with e | _ | form
      · cases done
        refine ⟨safe₁, fun error member => ?_⟩
        rcases List.mem_cons.1 member with same | old
        · cases same
          rfl
        · exact harmless error old
      · cases done
        exact ⟨safe₁, harmless⟩
      · have ran := guarded_evalFormWith (serve fuel) fuel form safe₁
        have safe₂ := safe₁.evalFormWith (serve fuel) fuel form
        dsimp only [evalForm] at done
        cases ended : evalFormWith (serve fuel) fuel form m₁ with
        | ok value m₂ =>
            rw [ended] at done safe₂
            refine ih reader₁ (safe₂.modifyBottom _) ?_ done
            intro error member
            rcases List.mem_cons.1 member with same | old
            · cases same
            · exact harmless error old
        | error e m₂ =>
            rw [ended] at done ran safe₂
            cases e with
            | outOfFuel => cases done
            | failed e =>
                refine ih reader₁ safe₂ ?_ done
                intro error member
                rcases List.mem_cons.1 member with same | old
                · cases same
                  exact ran.2
                · exact harmless error old

theorem evalText_safe {fuel : Nat} {source : String} {results : List FormResult} {m m' : Machine}
    (safe : m.Safe) (done : evalText fuel source m = some (results, m')) :
    m'.Safe ∧ ∀ error, .error error ∈ results → error.isFault = false := by
  unfold evalText at done
  dsimp only at done
  split at done
  · cases done
  · next found m₁ ran =>
      cases done
      obtain ⟨safe₁, harmless⟩ := evalForms_safe fuel _ _ safe (by simp) ran
      refine ⟨safe₁.modifyBottom _, fun error member => ?_⟩
      exact harmless error (List.mem_reverse.1 member)

theorem safe_ofConfig (config : Config) : (Heap.ofConfig config).Safe where
  wellFormed := Heap.wellFormed_ofConfig config
  unmarked := Heap.unmarked_ofConfig config
  plain := by
    intro r probe found
    rcases r.null_or_ofSlot with rfl | ⟨slot, rfl⟩ <;>
      simp [Heap.scalar?, Heap.ofConfig, Heap.ofArenaSize] at found
  codes := by
    intro r s code found
    rcases r.null_or_ofSlot with rfl | ⟨slot, rfl⟩ <;>
      simp [Heap.scalar?, Heap.ofConfig, Heap.ofArenaSize] at found

/-- A machine before its first symbol has no modules and no definitions. -/
theorem orderly_blank (config : Config) (level : Option NoteLevel) : (blank config level).Orderly where
  store := ⟨safe_ofConfig config, by simp [blank, Store.ofHeap]⟩
  modules := ⟨by simp [blank, Registry.empty, Registry.get?], by simp [blank, Registry.empty]⟩
  defined := by simp [blank]

/-- The steps by which a machine is set up. -/
theorem boot_ok {config : Config} {level : Option NoteLevel} {m : Machine}
    (booted : boot config level = .ok m) :
    ∃ truth m₁ name m₂ user m₃, intern id Keyword.t.name (blank config level) = .ok truth m₁ ∧
      intern id Keyword.user.name { m₁ with truth := truth } = .ok name m₂ ∧
      ensureModule id name m₂ = .ok user m₃ ∧
      m = { m₃ with user := user, top := .waiting user } := by
  have done : setUp (blank config level) = .ok () m := by
    unfold boot at booted
    cases done : setUp (blank config level) with
    | ok _ m' =>
        rw [done] at booted
        cases booted
        rfl
    | error e m' =>
        rw [done] at booted
        cases booted
  obtain ⟨truth, m₁, interned, rest₁⟩ := bind_eq_ok done
  obtain ⟨_, _, set, rest₂⟩ := bind_eq_ok rest₁
  obtain ⟨name, m₂, named, rest₃⟩ := bind_eq_ok rest₂
  obtain ⟨user, m₃, ensured, rest₄⟩ := bind_eq_ok rest₃
  cases set
  cases rest₄
  exact ⟨truth, m₁, name, m₂, user, m₃, interned, named, ensured, rfl⟩

/-- Setting a machine up develops the machine before its first symbol, up to the last step,
    which puts the module for forms in its place. -/
theorem boot_develops {config : Config} {level : Option NoteLevel} {m : Machine}
    (booted : boot config level = .ok m) :
    ∃ user m₁, (blank config level).Develops m₁ ∧ user < m₁.registry.size ∧
      m = { m₁ with user := user, top := .waiting user } := by
  obtain ⟨truth, m₁, name, m₂, user, m₃, interned, named, ensured, rfl⟩ := boot_ok booted
  have step₁ := @guarded_intern _ (fun _ => True) _ id (fun _ => trivial)
    (orderly_blank config level) Keyword.t.name
  rw [interned] at step₁
  have set : m₁.Develops { m₁ with truth := truth } :=
    ⟨step₁.develops.orderly.of_parts rfl rfl rfl, .refl _,
      keepsNames_of_heap rfl (.refl _) rfl fun _ => rfl, rfl⟩
  have step₂ := @guarded_intern _ (fun _ => True) _ id (fun _ => trivial) set.orderly
    Keyword.user.name
  rw [named] at step₂
  have symbol : m₂.heap.isSymbol name = true := by
    rw [Heap.isSymbol, intern_ok set.orderly.store named]
    rfl
  have step₃ := @guarded_ensureModule _ (fun _ => True) m₂ id (fun _ => trivial) name
    step₂.develops.orderly symbol
  rw [ensured] at step₃
  have known := @ensureModule_ok _ m₂ id name user m₃ step₂.develops.orderly symbol ensured
  exact ⟨user, m₃, ((step₁.develops.trans set).trans step₂.develops).trans step₃.develops, known, rfl⟩

theorem boot_safe {config : Config} {level : Option NoteLevel} {m : Machine}
    (booted : boot config level = .ok m) : m.Safe := by
  obtain ⟨user, m₁, develops, known, rfl⟩ := boot_develops booted
  exact ⟨develops.orderly.of_parts rfl rfl rfl, known⟩

/-- The states that a fresh machine reaches by evaluating texts. -/
inductive Reached : Machine → Prop where
  | boot {config : Config} {level : Option NoteLevel} {m : Machine} :
      boot config level = .ok m → Reached m
  | evalText {fuel : Nat} {source : String} {results : List FormResult} {m m' : Machine} :
      Reached m → evalText fuel source m = some (results, m') → Reached m'

theorem Reached.safe (reached : m.Reached) : m.Safe := by
  induction reached with
  | boot booted => exact boot_safe booted
  | evalText _ done ih => exact (evalText_safe ih done).1

end

end Machine

open Machine

/-- Compiled code passes the verifier, and no evaluation of a text, in whatever state a
    fresh machine has reached by evaluating texts, ends in a fault. -/
theorem compiled_code_never_goes_wrong :
    (∀ (expand : Expand) (fuel : Nat) (home : ModuleId) (m m' : Machine) (code : Code),
      (∃ name params body, Compile.function expand fuel home name params body m = .ok code m') ∨
        (∃ form, Compile.toplevel expand fuel home form m = .ok code m') →
      ∃ sites, code.Checked sites) ∧
    ∀ (m m' : Machine) (fuel : Nat) (source : String) (results : List FormResult), m.Reached →
      evalText fuel source m = some (results, m') →
      ∀ error, .error error ∈ results → error.isFault = false := by
  constructor
  · rintro expand fuel home m m' code (⟨name, params, body, done⟩ | ⟨form, done⟩)
    · obtain ⟨_, _, _, tree, _, _, _, impl, _⟩ := Compile.function_ok done
      obtain ⟨sites, checked, _⟩ := impl.verified (tree.named_of_all fun _ => trivial)
      exact ⟨sites, checked⟩
    · obtain ⟨tree, _, impl, _⟩ := Compile.toplevel_ok done
      obtain ⟨sites, checked, _⟩ := impl.verified (tree.named_of_all fun _ => trivial)
      exact ⟨sites, checked⟩
  · intro m m' fuel source results reached done
    exact (evalText_safe reached.safe done).2

/-- The failure of a form. -/
def failureOf? : FormResult → Option EvalError
  | .error error => some error
  | .ok _ => none

/-- The failures of a text in a fresh machine. -/
def failuresOf (source : String) : Option (List EvalError) :=
  match boot { arenaSize := 64 } none with
  | .error _ => none
  | .ok m =>
      match evalText 100 source m with
      | none => none
      | some (results, _) => some (results.filterMap failureOf?)

/-- The words of the code of an expression, compiled in a fresh machine. -/
def wordsOf (source : String) : Option (Array UInt16) :=
  match boot { arenaSize := 64 } none with
  | .error _ => none
  | .ok m =>
      match readForm (.ofSource source) m with
      | (.ok (some form), _, m) =>
          match compileToplevel 100 m.user form m with
          | .ok code _ => some code.words
          | .error _ _ => none
      | _ => none

theorem sampleText_has_no_fault :
    (∃ m form code m', compileToplevel 100 m.user form m = .ok code m' ∧
      code.words = #[1, 0, 4, 7, 18, 1, 1, 3, 0, 1, 2, 5, 2, 0, 8, 1, 6, 19, 0, 9] ∧
      ∃ sites, code.Checked sites) ∧
    ∃ m results m' error, m.Reached ∧
      evalText 100 "(defun f (x) (if x (car 5) (f t))) (f ())" m = some (results, m') ∧
      .error error ∈ results ∧ error.isFault = false := by
  constructor
  · have words : wordsOf "(if x (let ((y 7)) (f y)))" =
        some #[1, 0, 4, 7, 18, 1, 1, 3, 0, 1, 2, 5, 2, 0, 8, 1, 6, 19, 0, 9] := by decide +kernel
    unfold wordsOf at words
    split at words
    · cases words
    · split at words
      · next m _ form _ m₁ _ =>
          cases compiled : compileToplevel 100 m₁.user form m₁ with
          | error e m' =>
              rw [compiled] at words
              cases words
          | ok code m' =>
              rw [compiled] at words
              refine ⟨m₁, form, code, m', compiled, Option.some.inj words, ?_⟩
              exact compiled_code_never_goes_wrong.1 _ 100 m₁.user m₁ m' code
                (Or.inr ⟨form, compiled⟩)
      · cases words
  · have failures : failuresOf "(defun f (x) (if x (car 5) (f t))) (f ())" =
        some [.runtime (.typeError "car" "list" "5")] := by decide +kernel
    unfold failuresOf at failures
    split at failures
    · cases failures
    · next m booted =>
        split at failures
        · cases failures
        · next results m' ran =>
            have found : EvalError.runtime (.typeError "car" "list" "5") ∈
                results.filterMap failureOf? := by
              rw [Option.some.inj failures]
              exact List.mem_singleton.2 rfl
            obtain ⟨result, member, same⟩ := List.mem_filterMap.1 found
            cases result with
            | ok value => cases same
            | error error =>
                have reached : m.Reached := .boot booted
                refine ⟨m, results, m', error, reached, ran, member, ?_⟩
                exact compiled_code_never_goes_wrong.2 m m' 100 _ results reached ran error member

end LispMachine
