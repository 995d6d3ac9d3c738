import LispMachine.Proofs.Machine.Frames
import LispMachine.Proofs.Toplevel.Safety

/-!
# A form changes only what it defines

Compiling and running code leave the frames, the modules, the symbols and the
recorded definitions alone, also when they fail. A definition binds one name, as
its last act; so a form that fails has bound nothing.
-/

namespace LispMachine

/-- What a sequence ends in, if its parts keep a property of the state. -/
theorem after_bind {ε σ α β : Type} {P : σ → Prop} {action : EStateM ε σ α}
    {next : α → EStateM ε σ β} {s : σ} (first : P (after (action s)))
    (second : ∀ a s', action s = .ok a s' → P s' → P (after (next a s'))) :
    P (after ((action >>= next) s)) := by
  rw [bind_apply]
  cases done : action s with
  | ok a s' =>
      rw [done] at first
      exact second a s' done first
  | error e s' =>
      rw [done] at first
      exact first

/-! ## Heaps in which cells are freed -/

/-- Cells of the first heap may be free in the second; nothing else differs. -/
structure Heap.Thins (h h' : Heap) : Prop where
  size : h'.cells.size = h.cells.size
  cell : ∀ r, h'.cell? r = h.cell? r ∨ ∃ next, h'.cell? r = some (.free next)

namespace Heap

section

variable {h h' : Heap} {r : Ref}

theorem Thins.refl (h : Heap) : h.Thins h := ⟨rfl, fun _ => Or.inl rfl⟩

theorem thins_collect (h : Heap) (roots : List Ref) : h.Thins (h.collect roots).2 :=
  ⟨collect_size h roots, cell?_collect_cases h roots⟩

theorem Thins.found (thins : h.Thins h') {cell : Cell} (found : h'.cell? r = some cell)
    (used : cell.isFree = false) : h.cell? r = some cell := by
  rcases thins.cell r with same | ⟨next, freed⟩
  · exact same.symm.trans found
  · rw [freed] at found
    cases found
    cases used

theorem Thins.pair? (thins : h.Thins h') {both : Ref × Ref} (found : h'.pair? r = some both) :
    h.pair? r = some both :=
  pair?_eq_some.2 (thins.found (pair?_eq_some.1 found) rfl)

theorem Thins.keyword? (thins : h.Thins h') {keyword : Keyword}
    (found : h'.keyword? r = some keyword) : h.keyword? r = some keyword := by
  unfold Heap.keyword? at found ⊢
  cases named : h'.symbol? r with
  | none =>
      rw [named] at found
      cases found
  | some name =>
      rw [named] at found
      rw [symbol?_eq_some.2 (thins.found (symbol?_eq_some.1 named) rfl)]
      exact found

theorem Thins.walk (thins : h.Thins h') (bound : Nat) {r : Ref} {found items : List Ref}
    (walked : h'.walk bound r found = some items) : h.walk bound r found = some items := by
  induction bound generalizing r found with
  | zero => cases walked
  | succ bound ih =>
      unfold Heap.walk at walked ⊢
      split at walked
      · next empty => rw [if_pos empty, walked]
      · next more =>
          rw [if_neg more]
          split at walked
          · next car cdr held =>
              rw [thins.pair? held]
              exact ih walked
          · cases walked

/-- A list that is found now was there before. -/
theorem Thins.items? (thins : h.Thins h') {items : List Ref} (found : h'.items? r = some items) :
    h.items? r = some items := by
  unfold Heap.items? at found ⊢
  rw [thins.size] at found
  exact thins.walk _ found

theorem Thins.onlyBuiltins (thins : h.Thins h') (plain : Machine.OnlyBuiltins h) :
    Machine.OnlyBuiltins h' := by
  intro r probe found
  exact plain r probe (scalar?_eq_some.2 (thins.found (scalar?_eq_some.1 found) rfl))

/-- A callable that re-enters the machine does not come from another allocation. -/
theorem Allocated.onlyBuiltins {s : Scalar} (allocated : h.Allocated (.scalar s) r h')
    (plain : Machine.OnlyBuiltins h) (other : ∀ probe, s ≠ .native (.probe probe)) :
    Machine.OnlyBuiltins h' := by
  intro place probe found
  have held := scalar?_eq_some.1 found
  rcases (allocated.live_iff place).1 ⟨_, held, rfl⟩ with rfl | live
  · rw [allocated.found] at held
    cases held
    exact other probe rfl
  · rw [allocated.kept place live] at held
    exact plain place probe (scalar?_eq_some.2 held)

end

end Heap

namespace Machine

open Compile

/-! ## What compiling and running leave alone -/

/-- The modules with all their bindings, the symbol table and the recorded definitions
    are the same. -/
structure SameNames (m m' : Machine) : Prop where
  registry : m'.registry = m.registry
  symbols : m'.store.symbols = m.store.symbols
  defined : m'.defined = m.defined

/-- The frames and the names are the same, and code may run on. -/
structure Undisturbed (m m' : Machine) : Prop where
  frames : m.SameFrames m'
  names : m.SameNames m'
  ready : m'.Ready

section

variable {m m' m'' : Machine}

theorem SameNames.refl (m : Machine) : m.SameNames m := ⟨rfl, rfl, rfl⟩

theorem SameNames.trans (first : m.SameNames m') (second : m'.SameNames m'') : m.SameNames m'' :=
  ⟨second.registry.trans first.registry, second.symbols.trans first.symbols,
    second.defined.trans first.defined⟩

theorem Undisturbed.refl (ready : m.Ready) : m.Undisturbed m := ⟨.refl m, .refl m, ready⟩

theorem Undisturbed.trans (first : m.Undisturbed m') (second : m'.Undisturbed m'') :
    m.Undisturbed m'' :=
  ⟨first.frames.trans second.frames, first.names.trans second.names, second.ready⟩

theorem Ready.undisturbed (ready : m.Ready) (frames : m.SameFrames m') (grows : m.Grows m') :
    m.Undisturbed m' :=
  ⟨frames, ⟨grows.registry, grows.symbols, grows.defined⟩, grows.ready ready⟩

theorem Undisturbed.withJournal (undisturbed : m.Undisturbed m') (journal : Journal) :
    m.Undisturbed (m'.withJournal journal) :=
  ⟨⟨undisturbed.frames.top, undisturbed.frames.callers⟩,
    ⟨undisturbed.names.registry, undisturbed.names.symbols, undisturbed.names.defined⟩,
    undisturbed.ready.of_bare rfl⟩

end

/-- Macros run on the machine, so a compilation leaves frames and names alone. -/
def undisturbing (host : Host) (fuel : Nat) (m : Machine) : Contract (expandWith host fuel) where
  holds := m.Undisturbed
  covers _ := True
  allows _ _ := True
  own _ _ _ := trivial
  noted _ journal undisturbed := undisturbed.withJournal journal
  found _ _ _ _ _ _ := trivial
  runs code args m' _ _ undisturbed := by
    have frames := expandWith_frames host fuel code args undisturbed.ready
    have grows := expandWith_grows host fuel code args undisturbed.ready
    exact ⟨undisturbed.trans (undisturbed.ready.undisturbed frames grows), allowed_all _⟩

/-! ## Outcomes -/

/-- A computation that leaves frames and names alone when it fails, and otherwise has done
    what is stated. -/
def Outcome {ε α : Type} (m : Machine) (done : Machine → Prop) :
    EStateM.Result ε Machine α → Prop
  | .ok _ m' => done m'
  | .error _ m' => m.Undisturbed m'

section

variable {ε α β : Type} {m m' : Machine} {done : Machine → Prop}

theorem Outcome.bind {action : EStateM ε Machine α} {next : α → EStateM ε Machine β}
    (first : m.Undisturbed (after (action m')))
    (second : ∀ a m'', action m' = .ok a m'' → m.Undisturbed m'' → Outcome m done (next a m'')) :
    Outcome m done ((action >>= next) m') := by
  rw [bind_apply]
  cases ran : action m' with
  | ok a m'' =>
      rw [ran] at first
      exact second a m'' ran first
  | error e m'' =>
      rw [ran] at first
      exact first

theorem Outcome.imp {done' : Machine → Prop} {r : EStateM.Result ε Machine α}
    (outcome : Outcome m done r) (imp : ∀ m', done m' → done' m') : Outcome m done' r := by
  cases r with
  | ok _ m' => exact imp m' outcome
  | error _ _ => exact outcome

end

/-! ## Definitions and expressions -/

/-- Allocation of a scalar other than a callable that re-enters the machine. -/
theorem undisturbed_allocScalar {ε : Type} (f : HeapError → ε) {s : Scalar} {m m' : Machine}
    (before : m.Undisturbed m') (plain : ∀ probe, s ≠ .native (.probe probe)) :
    m.Undisturbed (after (onHeap f (Heap.allocScalar s) m')) := by
  have ready := before.ready
  rw [onHeap_apply]
  rcases @Heap.alloc_cases m'.heap (.scalar s) ready.wellFormed rfl with
    ⟨r, heap, made, allocated⟩ | ⟨failed, _⟩
  · rw [Heap.allocScalar, made]
    exact before.trans ⟨⟨rfl, rfl⟩, ⟨rfl, rfl, rfl⟩, allocated.wellFormed,
      allocated.onlyBuiltins ready.plain plain⟩
  · rw [Heap.allocScalar, failed]
    exact before

/-- The second machine binds a function in a module and records its name; besides, its
    frames and names are those of the first. -/
structure BindsFunction (m : Machine) (home : ModuleId) (name cell : Ref) (m' : Machine) :
    Prop where
  frames : m.SameFrames m'
  registry : m'.registry = m.registry.bindFunction home name cell
  symbols : m'.store.symbols = m.store.symbols
  defined : m'.defined = if m.defined.contains (home, name) then m.defined
    else m.defined.push (home, name)
  ready : m'.Ready

/-- The second machine binds a value in a module; besides, its frames and names are those of
    the first. -/
structure BindsValue (m : Machine) (home : ModuleId) (name value : Ref) (m' : Machine) :
    Prop where
  frames : m.SameFrames m'
  registry : m'.registry = m.registry.bindValue home name value
  symbols : m'.store.symbols = m.store.symbols
  defined : m'.defined = m.defined
  ready : m'.Ready

section

variable {m m' : Machine}

theorem Undisturbed.define (before : m.Undisturbed m') (home : ModuleId) (name cell : Ref) :
    m.BindsFunction home name cell (define home name cell m') := by
  obtain ⟨journal, eq⟩ := define_eq home name cell m'
  have names := before.names
  rw [eq]
  refine ⟨⟨before.frames.top, before.frames.callers⟩, ?_, names.symbols, ?_,
    before.ready.wellFormed, before.ready.plain⟩
  · rw [← names.registry]
    rfl
  · rw [← names.defined]

theorem Undisturbed.defineVariable (before : m.Undisturbed m') (home : ModuleId)
    (name value : Ref) :
    m.BindsValue home name value (after (defineVariable home name value m')) := by
  obtain ⟨journal, noted⟩ := note_eq (m'.bindValue home name value) .debug
    fun m => s!"defvar {m.display name} = {m.display value}"
  have names := before.names
  simp only [Machine.defineVariable, bind_apply, modify_apply, pure_apply, after_ok, noted]
  refine ⟨⟨before.frames.top, before.frames.callers⟩, ?_, names.symbols, names.defined,
    before.ready.wellFormed, before.ready.plain⟩
  rw [← names.registry]
  rfl

theorem definitionParts_ok {form : Ref} {parts : List Ref}
    (done : definitionParts form m = .ok parts m') :
    m' = m ∧ m.heap.items? form = some parts := by
  unfold definitionParts malformedDefinition at done
  split at done
  · next found =>
      cases done
      exact ⟨rfl, found⟩
  · split at done <;> cases done

theorem after_definitionParts (form : Ref) (m : Machine) : after (definitionParts form m) = m := by
  unfold definitionParts malformedDefinition
  split
  · rfl
  · split <;> rfl

theorem after_expectName (name : Ref) (context : String) (m : Machine) :
    after (expectName name context m) = m := by
  unfold expectName
  split <;> rfl

theorem after_wrap {ε ε' α : Type} (f : ε → ε') (action : Action ε α) (m : Machine) :
    after (wrap f action m) = after (action m) := by
  unfold wrap
  cases action m <;> rfl

/-- A definition fails and leaves frames and names alone, or binds the name it states. -/
theorem outcome_evalDefinition (host : Host) (fuel : Nat) {wrapCode : Code → Scalar}
    (plain : ∀ code probe, wrapCode code ≠ .native (.probe probe)) (home : ModuleId) (form : Ref)
    (ready : m.Ready) :
    Outcome m (fun m' => ∃ head name rest cell,
        m.heap.items? form = some (head :: name :: rest) ∧ m.BindsFunction home name cell m')
      (evalDefinition host fuel wrapCode home form m) := by
  have start := Undisturbed.refl ready
  refine Outcome.bind (by rwa [after_definitionParts]) fun parts m₁ taken step₁ => ?_
  obtain ⟨rfl, items⟩ := definitionParts_ok taken
  split
  · next head name params body =>
      refine Outcome.bind (by rwa [after_expectName]) fun _ m₂ _ step₂ => ?_
      have compiled := (function_upholds (undisturbing host fuel m₁) step₂ fuel home name params
        body).1
      refine Outcome.bind (by rwa [after_wrap]) fun code m₃ _ step₃ => ?_
      refine Outcome.bind (undisturbed_allocScalar _ step₃ (plain code)) fun cell m₄ _ step₄ => ?_
      exact ⟨head, name, _, cell, items, step₄.define home name cell⟩
  · exact start

/-- An expression leaves frames and names alone. -/
theorem undisturbed_evalExpression (host : Host) (fuel : Nat) (home : ModuleId) (form : Ref)
    (start : m.Undisturbed m') : m.Undisturbed (after (evalExpression host fuel home form m')) := by
  have compiled := (toplevel_upholds (undisturbing host fuel m) start fuel home form).1
  refine after_bind (by rwa [after_wrap]) fun code m₁ _ step₁ => ?_
  refine after_bind (undisturbed_allocScalar _ step₁ (by simp)) fun cell m₂ _ step₂ => ?_
  rw [after_wrap]
  exact step₂.trans (step₂.ready.undisturbed (applyWith_frames host fuel cell [] step₂.ready)
    (applyWith_grows host fuel cell [] step₂.ready))

/-- A variable definition fails and leaves frames and names alone, or binds the name it
    states. -/
theorem outcome_evalVariable (host : Host) (fuel : Nat) (home : ModuleId) (form : Ref)
    (ready : m.Ready) :
    Outcome m (fun m' => ∃ head name rest value,
        m.heap.items? form = some (head :: name :: rest) ∧ m.BindsValue home name value m')
      (evalVariable host fuel home form m) := by
  have start := Undisturbed.refl ready
  refine Outcome.bind (by rwa [after_definitionParts]) fun parts m₁ taken step₁ => ?_
  obtain ⟨rfl, items⟩ := definitionParts_ok taken
  split
  · next head name =>
      refine Outcome.bind (by rwa [after_expectName]) fun _ m₂ _ step₂ => ?_
      exact ⟨head, name, _, .null, items, step₂.defineVariable home name .null⟩
  · next head name form =>
      refine Outcome.bind (by rwa [after_expectName]) fun _ m₂ _ step₂ => ?_
      refine Outcome.bind (undisturbed_evalExpression host fuel home form step₂)
        fun value m₃ _ step₃ => ?_
      exact ⟨head, name, _, value, items, step₃.defineVariable home name value⟩
  · exact start

/-! ## Forms -/

/-- The form begins with the keyword of a definition. -/
def IsDefinition (m : Machine) (form : Ref) : Prop :=
  m.headKeyword? form = some .defineFunction ∨ m.headKeyword? form = some .defineExpander ∨
    m.headKeyword? form = some .defineVariable

/-- What a form other than a module form changes when it succeeds: the function binding or
    the value binding that a definition names, and nothing otherwise. A form whose cells
    carry marks may lose its keyword to a collection; then it is no definition. -/
inductive Changes (m : Machine) (home : ModuleId) (form : Ref) (m' : Machine) : Prop where
  | function {head name cell : Ref} {rest : List Ref} :
      m.headKeyword? form = some .defineFunction ∨ m.headKeyword? form = some .defineExpander →
      m.heap.items? form = some (head :: name :: rest) → m.BindsFunction home name cell m' →
      Changes m home form m'
  | variable {head name value : Ref} {rest : List Ref} :
      m.headKeyword? form = some .defineVariable →
      m.heap.items? form = some (head :: name :: rest) → m.BindsValue home name value m' →
      Changes m home form m'
  | nothing : (m.heap.Unmarked → ¬ m.IsDefinition form) → m.Undisturbed m' →
      Changes m home form m'

theorem outcome_evalIn (host : Host) (fuel : Nat) (home : ModuleId) (form : Ref) (ready : m.Ready)
    (other : m.headKeyword? form ≠ some .inModule) :
    Outcome m (m.Changes home form) (evalIn host fuel home form m) := by
  cases fuel with
  | zero => exact .refl ready
  | succ fuel =>
      unfold evalIn
      rw [bind_apply, get_apply]
      dsimp only
      generalize keyword : m.headKeyword? form = found at other
      split
      · refine (outcome_evalDefinition host fuel (by simp) home form ready).imp ?_
        rintro m' ⟨head, name, rest, cell, items, binds⟩
        exact .function (Or.inl keyword) items binds
      · refine (outcome_evalDefinition host fuel (by simp) home form ready).imp ?_
        rintro m' ⟨head, name, rest, cell, items, binds⟩
        exact .function (Or.inr keyword) items binds
      · refine (outcome_evalVariable host fuel home form ready).imp ?_
        rintro m' ⟨head, name, rest, value, items, binds⟩
        exact .variable keyword items binds
      · exact absurd rfl other
      · next noFunction noExpander noVariable _ =>
          have kept := undisturbed_evalExpression host fuel home form (.refl ready)
          have plain : ¬ m.IsDefinition form := by
            rw [IsDefinition, keyword]
            rintro (eq | eq | eq)
            · exact noFunction eq
            · exact noExpander eq
            · exact noVariable eq
          cases done : evalExpression host fuel home form m with
          | ok value m' =>
              rw [done] at kept
              exact .nothing (fun _ => plain) kept
          | error e m' =>
              rw [done] at kept
              exact kept

/-! ## Module forms -/

/-- The frames are the same, and code may run on. -/
structure Kept (m m' : Machine) : Prop where
  frames : m.SameFrames m'
  ready : m'.Ready

theorem Undisturbed.kept (undisturbed : m.Undisturbed m') : m.Kept m' :=
  ⟨undisturbed.frames, undisturbed.ready⟩

theorem Kept.trans {m'' : Machine} (first : m.Kept m') (second : m'.Kept m'') : m.Kept m'' :=
  ⟨first.frames.trans second.frames, second.ready⟩

/-- The modules, the symbols, the notes and the definitions may be others. -/
theorem Kept.of_same {m'' : Machine} (kept : m.Kept m') (top : m''.top = m'.top)
    (callers : m''.callers = m'.callers) (heap : m''.heap = m'.heap) : m.Kept m'' :=
  ⟨⟨top.trans kept.frames.top, callers.trans kept.frames.callers⟩,
    by rw [heap]; exact kept.ready.wellFormed, by rw [heap]; exact kept.ready.plain⟩

theorem Changes.kept {home : ModuleId} {form : Ref} (changes : m.Changes home form m') :
    m.Kept m' := by
  cases changes with
  | function _ _ binds => exact ⟨binds.frames, binds.ready⟩
  | «variable» _ _ binds => exact ⟨binds.frames, binds.ready⟩
  | nothing _ undisturbed => exact undisturbed.kept

section

variable {ε : Type} (f : HeapError → ε)

theorem kept_allocScalar {s : Scalar} (kept : m.Kept m')
    (plain : ∀ probe, s ≠ .native (.probe probe)) :
    m.Kept (after (onHeap f (Heap.allocScalar s) m')) :=
  kept.trans (undisturbed_allocScalar f (.refl kept.ready) plain).kept

theorem kept_intern (name : String) (kept : m.Kept m') : m.Kept (after (intern f name m')) := by
  have made := kept_allocScalar f (s := .symbol name) kept (by simp)
  simp only [intern, onStore, Store.intern_apply, onHeap_apply, Heap.allocScalar] at made ⊢
  cases m'.store.lookup name with
  | some cell => exact kept
  | none =>
      cases done : Heap.alloc (.scalar (.symbol name)) m'.heap with
      | ok cell heap =>
          rw [done] at made
          exact made.of_same rfl rfl rfl
      | error e heap =>
          rw [done] at made
          exact made.of_same rfl rfl rfl

theorem kept_installNatives (id : ModuleId) (builtins : List Builtin) (kept : m.Kept m') :
    m.Kept (after (installNatives f id (builtins.map Native.builtin) m')) := by
  induction builtins generalizing m' with
  | nil => exact kept
  | cons builtin rest ih =>
      refine after_bind ?_ fun _ m₁ _ step₁ => ih step₁
      refine after_bind (kept_intern f _ kept) fun name m₁ _ step₁ => ?_
      refine after_bind (kept_allocScalar f step₁ (by simp)) fun cell m₂ _ step₂ => ?_
      exact step₂.of_same rfl rfl rfl

theorem kept_ensureModule (name : Ref) (kept : m.Kept m') :
    m.Kept (after (ensureModule f name m')) := by
  unfold ensureModule
  rw [bind_apply, get_apply]
  dsimp only
  cases m'.registry.find? name with
  | some id => exact kept
  | none =>
      refine after_bind ?_ fun id m₁ _ step₁ => ?_
      · have made := kept_allocScalar f (s := .moduleCell m'.registry.size) kept (by simp)
        rw [onHeap_apply, Heap.allocScalar] at made
        rw [createModule_apply]
        cases done : Heap.alloc (.scalar (.moduleCell m'.registry.size)) m'.heap with
        | ok cell heap =>
            rw [done] at made
            exact made.of_same rfl rfl rfl
        | error e heap =>
            rw [done] at made
            exact made
      · refine after_bind (kept_installNatives f id _ step₁) fun _ m₂ _ step₂ => ?_
        obtain ⟨journal, noted⟩ := note_eq (m₂.bindValue id m₂.truth m₂.truth) .debug
          fun m => s!"created module {m.display name}"
        simp only [bind_apply, modify_apply, pure_apply, after_ok, noted]
        exact step₂.of_same rfl rfl rfl

end

theorem kept_evalEach {evalForm : Ref → Action EvalError Ref}
    (each : ∀ form (m : Machine), m.Ready → m.Kept (after (evalForm form m))) (forms : List Ref)
    (kept : m.Kept m') : m.Kept (after (evalEach evalForm forms m')) := by
  induction forms generalizing m' with
  | nil => exact kept
  | cons form rest ih =>
      refine after_bind (kept.trans (each form m' kept.ready)) fun _ m₁ _ step₁ => ih step₁

/-- A form of any kind leaves the frames as they were. -/
theorem kept_evalIn (host : Host) (fuel : Nat) (home : ModuleId) (form : Ref) (ready : m.Ready) :
    m.Kept (after (evalIn host fuel home form m)) := by
  induction fuel generalizing home form m with
  | zero => exact (Undisturbed.refl ready).kept
  | succ fuel ih =>
      by_cases inModule : m.headKeyword? form = some .inModule
      · have start := (Undisturbed.refl ready).kept
        unfold evalIn
        rw [bind_apply, get_apply]
        dsimp only
        rw [inModule]
        refine after_bind (by rwa [after_definitionParts]) fun parts m₁ _ step₁ => ?_
        split
        · rw [bind_apply, get_apply]
          dsimp only
          split
          · refine after_bind (kept_ensureModule _ _ step₁) fun id m₂ _ step₂ => ?_
            exact after_bind (kept_evalEach (fun form m ready => ih id form ready) _ step₂)
              fun _ m₃ _ step₃ => step₃
          · exact step₁
        · exact step₁
      · have outcome := outcome_evalIn host (fuel + 1) home form ready inModule
        cases done : evalIn host (fuel + 1) home form m with
        | ok value m' =>
            rw [done] at outcome
            exact outcome.kept
        | error e m' =>
            rw [done] at outcome
            exact outcome.kept

end

/-! ## The bottom frame -/

section

variable {m m' : Machine} {form : Ref}

theorem mem_frame_roots {frame : Frame} (member : frame ∈ m.frames) {r : Ref}
    (inside : r ∈ frame.roots) : r ∈ m.roots := by
  simp only [Machine.roots, List.mem_append, List.mem_flatMap]
  exact Or.inl (Or.inl ⟨frame, member, inside⟩)

theorem mem_stack_roots {r : Ref} (member : r ∈ m.top.stack) : r ∈ m.roots := by
  refine @mem_frame_roots m m.top ?_ r ?_
  · simp [frames]
  · simp [Frame.roots, member]

theorem bottom_idle (idle : m.callers = #[]) : m.bottom = m.top := by
  simp [bottom, idle]

theorem modifyBottom_idle (idle : m.callers = #[]) (f : List Ref → List Ref) :
    m.modifyBottom f = m.withTop { m.top with stack := f m.top.stack } := by
  simp [modifyBottom, idle, withTop]

theorem modifyBottom_push (idle : m.callers = #[]) (value : Ref) :
    (m.modifyBottom fun stack => value :: stack) = m.withTop (m.top.push value) :=
  modifyBottom_idle idle _

/-- Unwinding takes away the form that was pushed and nothing else. -/
theorem unwindTo_pushed (idle : m.callers = #[])
    (frames : (m.withTop (m.top.push form)).SameFrames m') :
    m'.unwindTo m.top.stack.length = m'.withTop m.top := by
  have callers : m'.callers = #[] := frames.callers.trans idle
  have top : m'.top = m.top.push form := frames.top
  simp [unwindTo, truncate, callers, modifyBottom, top, Frame.push, withTop]

/-! ## Collections before a form -/

/-- A machine that is about to evaluate a form: the form is parked on the work stack, and
    some cells may have been freed, but not those of the keyword at the head of the form if
    no cell carries a mark. -/
structure Prepared (m : Machine) (form : Ref) (m' : Machine) : Prop where
  frames : (m.withTop (m.top.push form)).SameFrames m'
  names : m.SameNames m'
  user : m'.user = m.user
  thins : m.heap.Thins m'.heap
  ready : m'.Ready
  unmarked : m.heap.Unmarked → m'.heap.Unmarked
  keyword : m.heap.Unmarked → ∀ keyword, m.headKeyword? form = some keyword →
    m'.headKeyword? form = some keyword

theorem headKeyword?_eq_some {keyword : Keyword} :
    m.headKeyword? form = some keyword ↔
      ∃ head cdr, m.heap.pair? form = some (head, cdr) ∧ m.heap.keyword? head = some keyword := by
  unfold headKeyword? Heap.car?
  cases m.heap.pair? form with
  | none => simp
  | some both =>
      rcases both with ⟨head, cdr⟩
      simp

theorem Prepared.keyword_before (prepared : m.Prepared form m') {keyword : Keyword}
    (found : m'.headKeyword? form = some keyword) : m.headKeyword? form = some keyword := by
  obtain ⟨head, cdr, pair, named⟩ := headKeyword?_eq_some.1 found
  exact headKeyword?_eq_some.2
    ⟨head, cdr, prepared.thins.pair? pair, prepared.thins.keyword? named⟩

/-- A collection does not take the keyword of a form that is a root. -/
theorem headKeyword?_collect {roots : List Ref} (clear : m.heap.Unmarked) (member : form ∈ roots)
    {keyword : Keyword} (found : m.headKeyword? form = some keyword) :
    (m.withHeap (m.heap.collect roots).2).headKeyword? form = some keyword := by
  have kept : ∀ r, m.heap.Reachable roots r →
      (m.heap.collect roots).2.cell? r = m.heap.cell? r := fun r reached =>
    Heap.cell?_collect clear ((Heap.live_collect_iff clear r).2 ⟨reached.live, reached⟩)
  obtain ⟨head, cdr, pair, named⟩ := headKeyword?_eq_some.1 found
  have holds := Heap.pair?_eq_some.1 pair
  have reached : m.heap.Reachable roots form := .root member ⟨_, holds, rfl⟩
  refine headKeyword?_eq_some.2
    ⟨head, cdr, Heap.pair?_eq_some.2 ((kept form reached).trans holds), ?_⟩
  unfold Heap.keyword? at named ⊢
  cases symbol : m.heap.symbol? head with
  | none =>
      rw [symbol] at named
      cases named
  | some name =>
      rw [symbol] at named
      have cell := Heap.symbol?_eq_some.1 symbol
      have below : m.heap.Reachable roots head := .child reached holds (.car _ _) ⟨_, cell, rfl⟩
      rw [withHeap_heap, Heap.symbol?_eq_some.2 ((kept head below).trans cell)]
      exact named

theorem prepared_collectIfDue (idle : m.callers = #[]) (ready : m.Ready) (form : Ref) :
    m.Prepared form (m.modifyBottom fun stack => form :: stack).collectIfDue := by
  rw [modifyBottom_push idle]
  unfold collectIfDue
  split
  · obtain ⟨journal, collected⟩ := collectGarbage_eq (m.withTop (m.top.push form))
    rw [collected]
    have thins := Heap.thins_collect m.heap (m.withTop (m.top.push form)).roots
    have member : form ∈ (m.withTop (m.top.push form)).roots :=
      mem_stack_roots (by simp [withTop, Frame.push])
    exact ⟨⟨rfl, rfl⟩, ⟨rfl, rfl, rfl⟩, rfl, thins,
      ⟨Heap.wellFormed_collect ready.wellFormed, thins.onlyBuiltins ready.plain⟩,
      Heap.unmarked_collect, fun clear _ found => headKeyword?_collect clear member found⟩
  · exact ⟨⟨rfl, rfl⟩, ⟨rfl, rfl, rfl⟩, rfl, .refl _, ⟨ready.wellFormed, ready.plain⟩, id,
      fun _ _ found => found⟩

/-- The frames of a machine, above what another one has done since it was prepared. -/
theorem Prepared.sameFrames {m₁ : Machine} (prepared : m.Prepared form m₁)
    (frames : m₁.SameFrames m') : m.SameFrames (m'.withTop m.top) :=
  ⟨rfl, frames.callers.trans prepared.frames.callers⟩

theorem Prepared.undisturbed {m₁ : Machine} (prepared : m.Prepared form m₁)
    (undisturbed : m₁.Undisturbed m') : m.Undisturbed (m'.withTop m.top) := by
  have names := prepared.names.trans undisturbed.names
  exact ⟨prepared.sameFrames undisturbed.frames, ⟨names.registry, names.symbols, names.defined⟩,
    undisturbed.ready.wellFormed, undisturbed.ready.plain⟩

theorem Prepared.bindsFunction {m₁ : Machine} {home : ModuleId} {name cell : Ref}
    (prepared : m.Prepared form m₁) (binds : m₁.BindsFunction home name cell m') :
    m.BindsFunction home name cell (m'.withTop m.top) where
  frames := prepared.sameFrames binds.frames
  registry := by
    rw [← prepared.names.registry]
    exact binds.registry
  symbols := binds.symbols.trans prepared.names.symbols
  defined := by
    rw [← prepared.names.defined]
    exact binds.defined
  ready := ⟨binds.ready.wellFormed, binds.ready.plain⟩

theorem Prepared.bindsValue {m₁ : Machine} {home : ModuleId} {name value : Ref}
    (prepared : m.Prepared form m₁) (binds : m₁.BindsValue home name value m') :
    m.BindsValue home name value (m'.withTop m.top) where
  frames := prepared.sameFrames binds.frames
  registry := by
    rw [← prepared.names.registry]
    exact binds.registry
  symbols := binds.symbols.trans prepared.names.symbols
  defined := binds.defined.trans prepared.names.defined
  ready := ⟨binds.ready.wellFormed, binds.ready.plain⟩

/-- What a form changes in a prepared machine it changes in the machine before. -/
theorem Prepared.changes {m₁ : Machine} {home : ModuleId} (prepared : m.Prepared form m₁)
    (changes : m₁.Changes home form m') : m.Changes home form (m'.withTop m.top) := by
  cases changes with
  | function keyword items binds =>
      exact .function (keyword.imp prepared.keyword_before prepared.keyword_before)
        (prepared.thins.items? items) (prepared.bindsFunction binds)
  | «variable» keyword items binds =>
      exact .variable (prepared.keyword_before keyword) (prepared.thins.items? items)
        (prepared.bindsValue binds)
  | nothing plain undisturbed =>
      refine .nothing (fun clear definition => ?_) (prepared.undisturbed undisturbed)
      exact plain (prepared.unmarked clear) (definition.imp (prepared.keyword clear _)
        (Or.imp (prepared.keyword clear _) (prepared.keyword clear _)))

/-! ## Whole forms -/

/-- A form is evaluated in the machine that was prepared for it, and then the frames are put
    back. -/
theorem evalFormWith_outcome (host : Host) (fuel : Nat) (idle : m.callers = #[]) (ready : m.Ready)
    (form : Ref) :
    m.Kept (after (evalFormWith host fuel form m)) ∧
      (m.headKeyword? form ≠ some .inModule →
        Outcome m (m.Changes m.user form) (evalFormWith host fuel form m)) := by
  have prepared := prepared_collectIfDue idle ready form
  unfold evalFormWith
  rw [bottom_idle idle]
  dsimp only
  generalize (m.modifyBottom fun stack => form :: stack).collectIfDue = m₁ at prepared ⊢
  rw [prepared.user]
  have kept := kept_evalIn host fuel m.user form prepared.ready
  have outcome : m.headKeyword? form ≠ some .inModule →
      Outcome m₁ (m₁.Changes m.user form) (evalIn host fuel m.user form m₁) := fun other =>
    outcome_evalIn host fuel m.user form prepared.ready fun inModule =>
      other (prepared.keyword_before inModule)
  cases done : evalIn host fuel m.user form m₁ with
  | ok value m₂ =>
      rw [done] at kept outcome
      have frames : (m.withTop (m.top.push form)).SameFrames m₂ :=
        prepared.frames.trans kept.frames
      dsimp only
      rw [unwindTo_pushed idle frames]
      exact ⟨⟨prepared.sameFrames kept.frames, kept.ready.wellFormed, kept.ready.plain⟩,
        fun other => prepared.changes (outcome other)⟩
  | error e m₂ =>
      rw [done] at kept outcome
      obtain ⟨journal, noted⟩ := noteFailure_eq e m₂
      have frames : (m.withTop (m.top.push form)).SameFrames (m₂.withJournal journal) :=
        prepared.frames.trans ⟨kept.frames.top, kept.frames.callers⟩
      dsimp only
      rw [noted, unwindTo_pushed idle frames]
      refine ⟨⟨⟨rfl, frames.callers⟩, kept.ready.wellFormed, kept.ready.plain⟩, fun other => ?_⟩
      exact prepared.undisturbed ((outcome other).withJournal journal)

/-- A form that fails leaves no trace, and one that succeeds changes only what it defines:
    in any state with the bottom frame alone, and however deep the failure lies, the bottom
    frame comes back as it was. Of a form other than a module form, a failure leaves every
    binding, the symbols and the recorded definitions as they were, and a success changes
    only the binding that a definition names. -/
theorem forms_change_only_what_they_define (m : Machine) (idle : m.callers = #[])
    (sound : m.heap.WellFormed) (plain : OnlyBuiltins m.heap) (fuel : Nat) (form : Ref) :
    ((after (evalForm fuel form m)).callers = #[] ∧ (after (evalForm fuel form m)).top = m.top) ∧
    (m.headKeyword? form ≠ some .inModule →
      (∀ e m', evalForm fuel form m = .error e m' → m.SameNames m') ∧
      (∀ value m', evalForm fuel form m = .ok value m' → m.Changes m.user form m')) := by
  obtain ⟨kept, outcome⟩ := evalFormWith_outcome (serve fuel) fuel idle ⟨sound, plain⟩ form
  refine ⟨⟨kept.frames.callers.trans idle, kept.frames.top⟩, fun other => ⟨?_, ?_⟩⟩
  · intro e m' failed
    have left := outcome other
    unfold evalForm at failed
    rw [failed] at left
    exact left.names
  · intro value m' done
    have left := outcome other
    unfold evalForm at done
    rw [done] at left
    exact left

end

/-- A fresh machine that has read the first form of a text. -/
def firstForm (source : String) : Option (Machine × Ref) :=
  match boot { arenaSize := 64 } none with
  | .error _ => none
  | .ok m =>
      match readForm (.ofSource source) m with
      | (.ok (some form), _, m) => some (m, form)
      | _ => none

theorem firstForm_safe {source : String} {m : Machine} {form : Ref}
    (found : firstForm source = some (m, form)) : m.Safe := by
  unfold firstForm at found
  split at found
  · cases found
  · next m₀ booted =>
      have safe := boot_safe booted
      have develops := readForm_develops (.ofSource source) safe.toOrderly
      split at found
      · next read =>
          cases found
          rw [read] at develops
          exact develops.safe safe
      · cases found

/-- Whether the first form of a text fails in a fresh machine. -/
def firstFails (source : String) : Option (Nat × Option Keyword × Bool) :=
  (firstForm source).map fun (m, form) =>
    (m.callers.size, m.headKeyword? form,
      match evalForm 100 form m with
      | .ok _ _ => false
      | .error _ _ => true)

/-- An expression fails inside a call and leaves every name alone; a definition succeeds. -/
theorem forms_change_only_what_they_define_sample :
    (∃ m form e m', m.callers = #[] ∧ m.heap.WellFormed ∧ OnlyBuiltins m.heap ∧
      m.headKeyword? form = some .let_ ∧ evalForm 100 form m = .error e m' ∧
      m'.top = m.top ∧ m.SameNames m') ∧
    ∃ m form value m', m.callers = #[] ∧ m.heap.WellFormed ∧ OnlyBuiltins m.heap ∧
      m.headKeyword? form = some .defineFunction ∧ evalForm 100 form m = .ok value m' ∧
      m'.top = m.top ∧ m.Changes m.user form m' := by
  constructor
  · have fails : firstFails "(let ((x 1)) (car x))" = some (0, some .let_, true) := by
      decide +kernel
    obtain ⟨⟨m, form⟩, found, seen⟩ := Option.map_eq_some_iff.1 fails
    simp only [Prod.mk.injEq, Array.size_eq_zero_iff] at seen
    obtain ⟨idle, keyword, failed⟩ := seen
    have ready := (firstForm_safe found).heap.ready
    obtain ⟨⟨_, top⟩, names⟩ :=
      forms_change_only_what_they_define m idle ready.wellFormed ready.plain 100 form
    cases done : evalForm 100 form m with
    | ok value m' =>
        rw [done] at failed
        cases failed
    | error e m' =>
        rw [done] at top
        exact ⟨m, form, e, m', idle, ready.wellFormed, ready.plain, keyword, done, top,
          (names (by simp [keyword])).1 e m' done⟩
  · have succeeds : firstFails "(defun f (x) (car x))" =
        some (0, some .defineFunction, false) := by decide +kernel
    obtain ⟨⟨m, form⟩, found, seen⟩ := Option.map_eq_some_iff.1 succeeds
    simp only [Prod.mk.injEq, Array.size_eq_zero_iff] at seen
    obtain ⟨idle, keyword, failed⟩ := seen
    have ready := (firstForm_safe found).heap.ready
    obtain ⟨⟨_, top⟩, names⟩ :=
      forms_change_only_what_they_define m idle ready.wellFormed ready.plain 100 form
    cases done : evalForm 100 form m with
    | ok value m' =>
        rw [done] at top
        exact ⟨m, form, value, m', idle, ready.wellFormed, ready.plain, keyword, done, top,
          (names (by simp [keyword])).2 value m' done⟩
    | error e m' =>
        rw [done] at failed
        cases failed

end Machine

end LispMachine
