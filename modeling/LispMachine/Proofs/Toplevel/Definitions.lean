import LispMachine.Proofs.Heap.Bookkeeping
import LispMachine.Proofs.Toplevel.Creation
import LispMachine.Proofs.Toplevel.Handles
import LispMachine.Proofs.Toplevel.Isolation

/-!
# The record of definitions

The machine records the names of the definitions that complete, not their cells. What the
record must hold is told here by the evaluation itself: each form has a list of the
definitions that it completes, whether or not it fails later, and a history strings these
lists together over everything that is done with a machine.
-/

namespace LispMachine

namespace Heap

variable {h h' : Heap} {cell : Ref} {code : Code}

theorem code?_congr (same : h'.cell? cell = h.cell? cell) : h'.code? cell = h.code? cell := by
  unfold code? scalar?
  rw [same]

theorem live_of_code? (held : h.code? cell = some code) : h.Live cell := by
  unfold code? at held
  cases found : h.scalar? cell with
  | none =>
      rw [found] at held
      cases held
  | some s => exact ⟨_, scalar?_eq_some.1 found, rfl⟩

theorem Keeps.code? (kept : h.Keeps h') (held : h.code? cell = some code) :
    h'.code? cell = some code :=
  (code?_congr (kept cell (live_of_code? held))).trans held

end Heap

namespace Machine

/-! ## Completed definitions -/

/-- A definition: the module and the name that it binds. -/
abbrev Definition := ModuleId × Ref

/-- The definitions completed by forms that are evaluated one after the other, up to the first
    that fails. -/
def completedEach (evalForm : Ref → Action EvalError Ref)
    (completed : Ref → Machine → List Definition) : List Ref → Machine → List Definition
  | [], _ => []
  | form :: rest, m =>
      completed form m ++
        match evalForm form m with
        | .ok _ m => completedEach evalForm completed rest m
        | .error _ _ => []

/-- The definitions that a module form completes: those of its forms, if there is such a
    module or it can be created. -/
def completedInModule (evalIn : ModuleId → Ref → Action EvalError Ref)
    (completed : ModuleId → Ref → Machine → List Definition) (form : Ref) (m : Machine) :
    List Definition :=
  match m.heap.items? form with
  | some (_ :: name :: body) =>
      if m.heap.isSymbol name then
        match ensureModule EvalError.ofHeap name m with
        | .ok id m => completedEach (evalIn id) (completed id) body m
        | .error _ _ => []
      else []
  | _ => []

/-- The definitions that a form completes in a module: its own if it is a definition that
    succeeds, and those of its forms if it is a module form. -/
def completedIn (host : Host) : Nat → ModuleId → Ref → Machine → List Definition
  | 0, _, _, _ => []
  | fuel + 1, home, form, m =>
      match m.headKeyword? form with
      | some .defineFunction | some .defineExpander =>
          match evalIn host (fuel + 1) home form m with
          | .ok name _ => [(home, name)]
          | .error _ _ => []
      | some .inModule => completedInModule (evalIn host fuel) (completedIn host fuel) form m
      | _ => []

/-- The definitions that a form completes at the top level. -/
def completedByForm (fuel : Nat) (form : Ref) (m : Machine) : List Definition :=
  let m := (m.modifyBottom fun stack => form :: stack).collectIfDue
  completedIn (serve fuel) fuel m.user form m

/-- The definitions completed by at most `count` forms of a text. -/
def completedByForms (fuel : Nat) : Nat → Reader → Machine → List Definition
  | 0, _, _ => []
  | count + 1, reader, m =>
      match readForm reader m with
      | (.ok (some form), reader, m) =>
          completedByForm fuel form m ++
            match evalForm fuel form m with
            | .ok value m =>
                completedByForms fuel count reader (m.modifyBottom fun stack => value :: stack)
            | .error (.failed _) m => completedByForms fuel count reader m
            | .error .outOfFuel _ => []
      | _ => []

/-- The definitions that a text completes. -/
def completedByText (fuel : Nat) (source : String) (m : Machine) : List Definition :=
  let reader := Reader.ofSource source
  completedByForms fuel (reader.ahead.length + 1) reader m

/-- What may have been done with a machine, with the definitions that have completed since the
    record was taken the last time. -/
inductive History : Machine → List Definition → Prop where
  | boot {config : Config} {level : Option NoteLevel} {m : Machine} :
      boot config level = .ok m → History m []
  | readForm {m : Machine} {completed : List Definition} (reader : Reader) :
      History m completed → History (readForm reader m).2.2 completed
  | evalForm {m : Machine} {completed : List Definition} {fuel : Nat} {form : Ref} :
      History m completed → m.heap.Held form →
        History (after (evalForm fuel form m)) (completed ++ completedByForm fuel form m)
  | evalText {m m' : Machine} {completed : List Definition} {fuel : Nat} {source : String}
      {results : List FormResult} :
      History m completed → evalText fuel source m = some (results, m') →
        History m' (completed ++ completedByText fuel source m)
  | intern {m : Machine} {completed : List Definition} (name : String) :
      History m completed → History (after (intern id name m)) completed
  | ensureModule {m : Machine} {completed : List Definition} {name : Ref} :
      History m completed → m.heap.isSymbol name = true →
        History (after (ensureModule id name m)) completed
  | collectGarbage {m : Machine} {completed : List Definition} :
      History m completed → History m.collectGarbage.2 completed
  | takeDefinitions {m : Machine} {completed : List Definition} :
      History m completed → History m.takeDefinitions.2 []

/-! ## The record -/

/-- A definition joins the record unless it is there. -/
def recorded (record : Array Definition) (d : Definition) : Array Definition :=
  if record.contains d then record else record.push d

/-- The record holds each definition once, in the order of first completion. -/
theorem foldl_recorded {record : Array Definition} {before : List Definition}
    (held : record.toList = before.eraseDups) (completed : List Definition) :
    (completed.foldl recorded record).toList = (before ++ completed).eraseDups := by
  induction completed generalizing record before with
  | nil => rwa [List.append_nil]
  | cons d completed ih =>
      have known : record.contains d = true ↔ d ∈ before := by
        rw [Array.contains_iff_mem, ← Array.mem_toList_iff, held, List.mem_eraseDups]
      have next : (recorded record d).toList = (before ++ [d]).eraseDups := by
        rw [Cycle.eraseDups_snoc, recorded]
        by_cases inside : d ∈ before
        · rw [if_pos (known.2 inside), if_pos inside, held]
        · rw [if_neg (mt known.1 inside), if_neg inside, Array.toList_push, held]
      rw [List.foldl_cons, ih next, List.append_assoc, List.singleton_append]

/-! ## What an evaluation does to the record and the bindings -/

/-- The name is bound to code in a cell that was not in use in the heap. -/
def Renewed (h : Heap) (m : Machine) (d : Definition) : Prop :=
  ∃ cell code, m.registry.function? d.1 d.2 = some cell ∧ m.heap.code? cell = some code ∧
    ¬ h.Live cell

/-- The second machine comes from the first by completing definitions, without a collection:
    these and no others are bound anew, and the record has taken note of them. -/
structure Enacts (m : Machine) (completed : List Definition) (m' : Machine) : Prop where
  develops : m.Develops m'
  record : m'.defined = completed.foldl recorded m.defined
  renewed : ∀ d ∈ completed, Renewed m.heap m' d
  bound : ∀ d cell, d ∉ completed → m.registry.function? d.1 d.2 = some cell →
    m'.registry.function? d.1 d.2 = some cell

section

variable {m m' m'' : Machine} {completed completed' : List Definition} {home : ModuleId} {form : Ref}

theorem Enacts.refl (orderly : m.Orderly) : m.Enacts [] m :=
  ⟨orderly.refl, rfl, nofun, fun _ _ _ bound => bound⟩

theorem Renewed.keeps {h h' : Heap} {d : Definition} (kept : h.Keeps h') (renewed : Renewed h' m d) :
    Renewed h m d := by
  obtain ⟨cell, code, bound, held, fresh⟩ := renewed
  exact ⟨cell, code, bound, held, fun live => fresh (kept.live live)⟩

/-- A name that both of them bind is bound by the second. -/
theorem Enacts.trans (first : m.Enacts completed m') (second : m'.Enacts completed' m'') :
    m.Enacts (completed ++ completed') m'' where
  develops := first.develops.trans second.develops
  record := by rw [second.record, first.record, List.foldl_append]
  renewed := by
    intro d member
    by_cases later : d ∈ completed'
    · exact (second.renewed d later).keeps first.develops.kept
    · have earlier := (List.mem_append.1 member).resolve_right later
      obtain ⟨cell, code, bound, held, fresh⟩ := first.renewed d earlier
      exact ⟨cell, code, second.bound d cell later bound, second.develops.kept.code? held, fresh⟩
  bound := by
    intro d cell other bound
    have apart := not_or.1 (mt List.mem_append.2 other)
    exact second.bound d cell apart.2 (first.bound d cell apart.1 bound)

/-- Nothing completes where the functions of modules and the record stay. -/
theorem Develops.enacts (develops : m.Develops m') (record : m'.defined = m.defined)
    (same : ∀ id name, id < m.registry.size →
      m'.registry.function? id name = m.registry.function? id name) : m.Enacts [] m' where
  develops := develops
  record := record
  renewed := nofun
  bound := by
    intro d cell _ bound
    rw [same d.1 d.2 (Registry.lt_size_of_function? (Option.isSome_of_eq_some bound))]
    exact bound

theorem Develops.enacts_of_names (develops : m.Develops m') (names : m.SameNames m') :
    m.Enacts [] m' := by
  apply develops.enacts names.defined
  intro id name _
  rw [names.registry]

/-! ### Definitions -/

/-- A definition that succeeds binds its name to code in a new cell. -/
theorem evalDefinition_ok (host : Host) (fuel : Nat) {wrapCode : Code → Scalar}
    (plain : ∀ code probe, wrapCode code ≠ .native (.probe probe))
    (coded : ∀ code, (wrapCode code).code? = some code) {value : Ref} (orderly : m.Orderly)
    (done : evalDefinition host fuel wrapCode home form m = .ok value m') :
    ∃ cell code, m.BindsFunction home value cell m' ∧ m'.heap.code? cell = some code ∧
      ¬ m.heap.Live cell := by
  have ready := orderly.heap.ready
  have start := Undisturbed.refl ready
  unfold evalDefinition at done
  obtain ⟨parts, m₁, taken, rest₁⟩ := bind_eq_ok done
  obtain ⟨rfl, items⟩ := definitionParts_ok taken
  split at rest₁
  · next head name params body =>
      obtain ⟨_, m₂, named, rest₂⟩ := bind_eq_ok rest₁
      have same := after_expectName name "function name" m₁
      rw [named, after_ok] at same
      subst same
      obtain ⟨code, m₃, compiled, rest₃⟩ := bind_eq_ok rest₂
      have step₃ := (Compile.function_upholds (undisturbing host fuel m₂) start fuel home name params body).1
      have tame := (Compile.function_tame (expandWith_safe host fuel) orderly.heap fuel home name
        params body).1
      rw [wrap_ok compiled, after_ok] at step₃ tame
      obtain ⟨cell, m₄, made, rest₄⟩ := bind_eq_ok rest₃
      have step₄ := undisturbed_allocScalar EvalError.ofHeap step₃ (plain code)
      rw [made, after_ok] at step₄
      rw [onHeap_apply] at made
      rcases @Heap.alloc_cases m₃.heap (.scalar (wrapCode code)) step₃.ready.wellFormed rfl with
        ⟨r, heap, placed, allocated⟩ | ⟨failed, _⟩
      · rw [Heap.allocScalar, placed] at made
        cases made
        cases rest₄
        have held : heap.scalar? cell = some (wrapCode code) := Heap.scalar?_eq_some.2 allocated.found
        refine ⟨cell, code, step₄.define home value cell, ?_, fun live => ?_⟩
        · obtain ⟨journal, eq⟩ := define_eq home value cell (m₃.withHeap heap)
          rw [eq]
          change heap.code? cell = some code
          rw [Heap.code?, held]
          exact coded code
        · exact allocated.fresh ((tame.keeps ready).live live)
      · rw [Heap.allocScalar, failed] at made
        cases made
  · cases rest₁

theorem BindsFunction.enacts {name cell : Ref} {code : Code} (binds : m.BindsFunction home name cell m')
    (develops : m.Develops m') (known : home < m.registry.size)
    (held : m'.heap.code? cell = some code) (fresh : ¬ m.heap.Live cell) :
    m.Enacts [(home, name)] m' where
  develops := develops
  record := binds.defined
  renewed := by
    intro d member
    rw [List.mem_singleton.1 member]
    refine ⟨cell, code, ?_, held, fresh⟩
    rw [binds.registry, Registry.function?_bindFunction, if_pos ⟨rfl, rfl, known⟩]
  bound := by
    intro d cell' other bound
    have apart : ¬ (home = d.1 ∧ name = d.2 ∧ home < m.registry.size) := by
      rintro ⟨module, symbol, _⟩
      exact other (List.mem_singleton.2 (Prod.ext module.symm symbol.symm))
    rw [binds.registry, Registry.function?_bindFunction, if_neg apart]
    exact bound

/-- A definition form completes its definition if it succeeds and nothing otherwise. -/
theorem enacts_evalDefinition (host : Host) (fuel : Nat) {wrapCode : Code → Scalar}
    (plain : ∀ code probe, wrapCode code ≠ .native (.probe probe))
    (coded : ∀ code, (wrapCode code).code? = some code)
    (other : ∀ code, (wrapCode code).isRegistered = false) (form : Ref)
    (orderly : m.Orderly) (known : home < m.registry.size) :
    m.Enacts (match evalDefinition host fuel wrapCode home form m with
      | .ok name _ => [(home, name)]
      | .error _ _ => []) (after (evalDefinition host fuel wrapCode home form m)) := by
  have develops := (guarded_evalDefinition host fuel plain coded other form orderly known).develops
  have outcome := outcome_evalDefinition host fuel plain home form orderly.heap.ready
  cases done : evalDefinition host fuel wrapCode home form m with
  | ok name m' =>
      rw [done, after_ok] at develops
      obtain ⟨cell, code, binds, held, fresh⟩ := evalDefinition_ok host fuel plain coded orderly done
      exact binds.enacts develops known held fresh
  | error e m' =>
      rw [done] at develops outcome
      exact develops.enacts_of_names outcome.names

theorem enacts_evalVariable (host : Host) (fuel : Nat) (home : ModuleId) (form : Ref)
    (orderly : m.Orderly) : m.Enacts [] (after (evalVariable host fuel home form m)) := by
  have develops := (guarded_evalVariable host fuel home form orderly).develops
  have outcome := outcome_evalVariable host fuel home form orderly.heap.ready
  cases done : evalVariable host fuel home form m with
  | ok value m' =>
      rw [done] at develops outcome
      obtain ⟨head, name, rest, bound, items, binds⟩ := outcome
      apply Develops.enacts develops binds.defined
      intro id symbol _
      rw [after_ok, binds.registry, Registry.function?_bindValue]
  | error e m' =>
      rw [done] at develops outcome
      exact develops.enacts_of_names outcome.names

theorem enacts_evalExpression (host : Host) (fuel : Nat) (home : ModuleId) (form : Ref)
    (orderly : m.Orderly) : m.Enacts [] (after (evalExpression host fuel home form m)) := by
  have develops := (guarded_evalExpression host fuel home form orderly).develops
  have kept := undisturbed_evalExpression host fuel home form (.refl orderly.heap.ready)
  exact develops.enacts_of_names kept.names

/-! ### Modules -/

/-- The record is the same. -/
def SameRecord (m m' : Machine) : Prop := m'.defined = m.defined

theorem sameRecord_onStore {ε ε' α : Type} (f : ε → ε') (action : EStateM ε Store α)
    (same : m.SameRecord m') : m.SameRecord (after (onStore f action m')) := by
  rw [after_onStore]
  exact same

theorem sameRecord_installNatives {ε : Type} (f : HeapError → ε) (id : ModuleId)
    (natives : List Native) (same : m.SameRecord m') :
    m.SameRecord (after (installNatives f id natives m')) := by
  induction natives generalizing m' with
  | nil => exact same
  | cons native rest ih =>
      refine after_bind ?_ fun _ m₁ _ step₁ => ih step₁
      refine after_bind (sameRecord_onStore f _ same) fun name m₁ _ step₁ => ?_
      exact after_bind (sameRecord_onStore f _ step₁) fun cell m₂ _ step₂ => step₂

theorem sameRecord_ensureModule {ε : Type} (f : HeapError → ε) (name : Ref) :
    m.SameRecord (after (ensureModule f name m)) := by
  unfold ensureModule
  rw [bind_apply, get_apply]
  dsimp only
  cases m.registry.find? name with
  | some id => exact rfl
  | none =>
      have created : m.SameRecord (after (createModule f name m)) := by
        rw [createModule_apply]
        split <;> exact rfl
      refine after_bind created fun id m₁ _ step₁ => ?_
      refine after_bind (sameRecord_installNatives f id _ step₁) fun _ m₂ _ step₂ => ?_
      obtain ⟨journal, noted⟩ := note_eq (m₂.bindValue id m₂.truth m₂.truth) .debug
        fun m => s!"created module {m.display name}"
      simp only [bind_apply, modify_apply, pure_apply, after_ok, noted]
      exact step₂

/-- A module may be created, and then it is filled; the modules that were there stay. -/
theorem enacts_ensureModule {ε : Type} (f : HeapError → ε) {name : Ref} (orderly : m.Orderly)
    (symbol : m.heap.isSymbol name = true) : m.Enacts [] (after (ensureModule f name m)) := by
  have develops := (@guarded_ensureModule ε (fun _ => True) m f (fun _ => trivial) name orderly
    symbol).develops
  apply develops.enacts (sameRecord_ensureModule f name)
  intro id other known
  have same : ∀ {r : Registry}, r = m.registry ∨ m.registry.Gains name r →
      r.function? id other = m.registry.function? id other := by
    rintro r (rfl | gains)
    · rfl
    · rw [Registry.function?_eq, Registry.function?_eq, gains.get? id known]
  cases found : m.registry.find? name with
  | some id' =>
      rw [ensureModule_found f found]
      rfl
  | none =>
      rcases ensureModule_new f orderly symbol found with
        ⟨m', done, gains, _, _⟩ | ⟨e, m', failed, rest⟩
      · rw [done]
        exact same (.inr gains)
      · rw [failed]
        exact same (rest.imp (fun kept => kept) And.left)

/-! ### Forms -/

theorem enacts_evalEach {evalForm : Ref → Action EvalError Ref}
    {completed : Ref → Machine → List Definition} {id : ModuleId}
    (each : ∀ form (m : Machine), m.Orderly → id < m.registry.size →
      m.Enacts (completed form m) (after (evalForm form m)))
    (forms : List Ref) (orderly : m.Orderly) (known : id < m.registry.size) :
    m.Enacts (completedEach evalForm completed forms m) (after (evalEach evalForm forms m)) := by
  induction forms generalizing m with
  | nil => exact .refl orderly
  | cons form rest ih =>
      have first := each form m orderly known
      unfold completedEach evalEach
      rw [bind_apply]
      cases done : evalForm form m with
      | ok value m' =>
          rw [done, after_ok] at first
          have known' := Nat.lt_of_lt_of_le known first.develops.size
          exact first.trans (ih first.develops.orderly known')
      | error e m' =>
          rw [done, after_error] at first
          dsimp only
          rwa [List.append_nil]

/-- A module form completes what its forms complete, up to the first that fails. -/
theorem enacts_evalModule {evalIn : ModuleId → Ref → Action EvalError Ref}
    {completed : ModuleId → Ref → Machine → List Definition}
    (each : ∀ id form (m : Machine), m.Orderly → id < m.registry.size →
      m.Enacts (completed id form m) (after (evalIn id form m)))
    (form : Ref) (orderly : m.Orderly) :
    m.Enacts (completedInModule evalIn completed form m) (after (evalModule evalIn form m)) := by
  unfold completedInModule evalModule
  rw [bind_apply]
  unfold definitionParts
  cases items : m.heap.items? form with
  | none =>
      dsimp only
      by_cases endless : m.heap.isEndless form = true
      · rw [if_pos endless]
        exact .refl orderly
      · rw [if_neg endless]
        exact .refl orderly
  | some parts =>
      rcases parts with _ | ⟨head, _ | ⟨name, body⟩⟩
      · exact .refl orderly
      · exact .refl orderly
      · dsimp only
        rw [bind_apply, get_apply]
        dsimp only
        by_cases symbol : m.heap.isSymbol name = true
        · rw [if_pos symbol, if_pos symbol, bind_apply]
          have first := enacts_ensureModule EvalError.ofHeap orderly symbol
          cases ensured : ensureModule EvalError.ofHeap name m with
          | error e m' =>
              rw [ensured, after_error] at first
              exact first
          | ok id m' =>
              rw [ensured, after_ok] at first
              have known := ensureModule_ok orderly symbol ensured
              have both := first.trans (enacts_evalEach (each id) body first.develops.orderly known)
              rw [List.nil_append] at both
              dsimp only
              rw [bind_apply]
              cases ran : evalEach (evalIn id) body m' with
              | ok value m'' =>
                  rw [ran] at both
                  exact both
              | error e m'' =>
                  rw [ran] at both
                  exact both
        · rw [if_neg symbol, if_neg symbol]
          exact .refl orderly

theorem evalIn_succ (host : Host) (fuel : Nat) (home : ModuleId) (form : Ref) (m : Machine) :
    evalIn host (fuel + 1) home form m =
      (match m.headKeyword? form with
        | some .defineFunction => evalDefinition host fuel .function home form
        | some .defineExpander => evalDefinition host fuel .expander home form
        | some .defineVariable => evalVariable host fuel home form
        | some .inModule => evalModule (evalIn host fuel) form
        | _ => evalExpression host fuel home form) m := rfl

/-- What a form completes in a module is recorded, and its names alone are bound anew. The
    induction is on the fuel, which bounds how deeply module forms are nested. -/
theorem enacts_evalIn (host : Host) (fuel : Nat) {home : ModuleId} (form : Ref)
    (orderly : m.Orderly) (known : home < m.registry.size) :
    m.Enacts (completedIn host fuel home form m) (after (evalIn host fuel home form m)) := by
  induction fuel generalizing home form m with
  | zero => exact .refl orderly
  | succ fuel ih =>
      unfold completedIn
      split
      · next keyword =>
          rw [evalIn_succ, keyword]
          exact enacts_evalDefinition host fuel (by simp) (fun _ => rfl) (fun _ => rfl) form orderly
            known
      · next keyword =>
          rw [evalIn_succ, keyword]
          exact enacts_evalDefinition host fuel (by simp) (fun _ => rfl) (fun _ => rfl) form orderly
            known
      · next keyword =>
          rw [evalIn_succ, keyword]
          exact enacts_evalModule (fun id form m orderly known => ih form orderly known) form orderly
      · next noFunction noExpander noModule =>
          rw [evalIn_succ]
          generalize m.headKeyword? form = keyword at noFunction noExpander noModule ⊢
          split
          · exact absurd rfl noFunction
          · exact absurd rfl noExpander
          · exact enacts_evalVariable host fuel home form orderly
          · exact absurd rfl noModule
          · exact enacts_evalExpression host fuel home form orderly

/-- Frames and journal have no part in it. -/
theorem Enacts.of_bare (enacts : m.Enacts completed m') (same : m'.bare = m''.bare) :
    m.Enacts completed m'' := by
  have registry : m'.registry = m''.registry := (congrArg Machine.registry same :)
  have heap : m'.heap = m''.heap := (congrArg Machine.heap same :)
  have defined : m'.defined = m''.defined := (congrArg Machine.defined same :)
  refine ⟨enacts.develops.trans (enacts.develops.orderly.of_bare same), ?_, ?_, ?_⟩
  · rw [← defined]
    exact enacts.record
  · intro d member
    unfold Renewed
    rw [← registry, ← heap]
    exact enacts.renewed d member
  · rw [← registry]
    exact enacts.bound

/-- From the collection on that may come first, a form at the top level does what it completes. -/
theorem enacts_evalForm (fuel : Nat) (form : Ref) (safe : m.Safe) :
    (m.modifyBottom fun stack => form :: stack).collectIfDue.Enacts (completedByForm fuel form m)
      (after (evalForm fuel form m)) := by
  have safe₁ := (safe.modifyBottom fun stack => form :: stack).collectIfDue
  have ran := enacts_evalIn (serve fuel) fuel form safe₁.toOrderly safe₁.user
  unfold completedByForm evalForm evalFormWith
  dsimp only
  generalize (m.modifyBottom fun stack => form :: stack).collectIfDue = m₁ at ran ⊢
  cases done : evalIn (serve fuel) fuel m₁.user form m₁ with
  | ok value m₂ =>
      rw [done] at ran
      exact ran.of_bare (unwindTo_bare _ m₂)
  | error e m₂ =>
      rw [done] at ran
      obtain ⟨journal, noted⟩ := noteFailure_eq e m₂
      dsimp only
      rw [noted]
      exact ran.of_bare (unwindTo_bare _ (m₂.withJournal journal))

/-! ## Histories -/

theorem mem_roots_of_function? {id : ModuleId} {name cell : Ref}
    (bound : m.registry.function? id name = some cell) : cell ∈ m.roots := by
  rw [Registry.function?_eq] at bound
  obtain ⟨module, found, bound⟩ := Option.bind_eq_some_iff.1 bound
  have kept := (Module.mem_bindingRoots (Assoc.mem_of_lookup bound)).2
  exact mem_roots_of_get? found (by simp [Module.roots, kept])

/-- The record holds each definition of a list once, and each is bound to code. -/
structure Recording (m : Machine) (completed : List Definition) : Prop where
  resting : m.Resting
  record : m.defined.toList = completed.eraseDups
  coded : ∀ d ∈ completed, ∃ cell code, m.registry.function? d.1 d.2 = some cell ∧
    m.heap.code? cell = some code

/-- What is held by a root stays where it is. -/
def KeepsRoots (m m' : Machine) : Prop :=
  ∀ r ∈ m.roots, m.heap.Live r → m'.heap.cell? r = m.heap.cell? r

/-- Definitions join the record and are bound to code; the others stay bound to the code that
    they have. -/
theorem Recording.step {new : List Definition} (recording : m.Recording completed)
    (resting : m'.Resting) (record : m'.defined = new.foldl recorded m.defined)
    (renewed : ∀ d ∈ new, ∃ cell code, m'.registry.function? d.1 d.2 = some cell ∧
      m'.heap.code? cell = some code)
    (bound : ∀ d cell, d ∉ new → m.registry.function? d.1 d.2 = some cell →
      m'.registry.function? d.1 d.2 = some cell)
    (kept : m.KeepsRoots m') : m'.Recording (completed ++ new) where
  resting := resting
  record := by rw [record, foldl_recorded recording.record]
  coded := by
    intro d member
    by_cases later : d ∈ new
    · exact renewed d later
    · have earlier := (List.mem_append.1 member).resolve_right later
      obtain ⟨cell, code, before, held⟩ := recording.coded d earlier
      have same := kept cell (mem_roots_of_function? before) (Heap.live_of_code? held)
      exact ⟨cell, code, bound d cell later before, (Heap.code?_congr same).trans held⟩

/-- A use that completes nothing. -/
theorem Recording.still (recording : m.Recording completed) (resting : m'.Resting)
    (record : m'.defined = m.defined)
    (bound : ∀ (d : Definition) cell, m.registry.function? d.1 d.2 = some cell →
      m'.registry.function? d.1 d.2 = some cell)
    (kept : m.KeepsRoots m') : m'.Recording completed := by
  have step := @Recording.step m m' completed [] recording resting record nofun
    (fun d cell _ => bound d cell) kept
  rwa [List.append_nil] at step

theorem Recording.readForm (recording : m.Recording completed) (reader : Reader) :
    (readForm reader m).2.2.Recording completed := by
  have resting := recording.resting
  have rests := (resting.readForm reader).1
  have kept := (resting.readForm_keeps reader).1
  obtain ⟨s, changed, grows⟩ := readForm_grows reader resting.safe.store
  apply recording.still rests
  · rw [changed]
  · rw [changed]
    exact fun _ _ bound => bound
  · exact fun r _ live => kept r live

theorem Recording.modifyBottom (recording : m.Recording completed) {f : List Ref → List Ref}
    (resting : (m.modifyBottom f).Resting) : (m.modifyBottom f).Recording completed := by
  rw [modifyBottom_idle recording.resting.idle] at resting ⊢
  exact recording.still resting rfl (fun _ _ bound => bound) fun _ _ _ => rfl

/-- Whatever becomes of a form, the definitions that it completes join the record. -/
theorem Recording.evalForm (recording : m.Recording completed) (fuel : Nat)
    (held : m.heap.Held form) :
    (after (evalForm fuel form m)).Recording (completed ++ completedByForm fuel form m) := by
  have resting := recording.resting
  have rests : (after (Machine.evalForm fuel form m)).Resting :=
    (resting.evalFormWith (serve fuel) fuel held).1
  have enacts := enacts_evalForm fuel form resting.safe
  have prepared := prepared_collectIfDue resting.idle resting.safe.heap.ready form
  apply recording.step rests
  · rw [enacts.record, prepared.names.defined]
  · intro d member
    obtain ⟨cell, code, bound, held, _⟩ := enacts.renewed d member
    exact ⟨cell, code, bound, held⟩
  · intro d cell other bound
    apply enacts.bound d cell other
    rw [prepared.names.registry]
    exact bound
  · intro r member live
    exact resting.evalFormWith_keeps (serve fuel) fuel form (.root member live)

theorem Recording.evalForms (recording : m.Recording completed) {fuel count : Nat}
    {reader : Reader} {results all : List FormResult}
    (done : evalForms fuel count reader results m = some (all, m')) :
    m'.Recording (completed ++ completedByForms fuel count reader m) := by
  induction count generalizing reader results m completed with
  | zero =>
      cases done
      rwa [completedByForms, List.append_nil]
  | succ count ih =>
      have recording₁ := recording.readForm reader
      have held := (recording.resting.readForm reader).2
      unfold Machine.evalForms at done
      unfold completedByForms
      rcases read : Machine.readForm reader m with ⟨outcome, reader₁, m₁⟩
      rw [read] at done recording₁ held
      rcases outcome with e | _ | form
      · cases done
        rwa [List.append_nil]
      · cases done
        rwa [List.append_nil]
      · dsimp only at done ⊢
        have recording₂ := recording₁.evalForm fuel (held form rfl)
        have held₂ := (recording₁.resting.evalFormWith (serve fuel) fuel (held form rfl)).2
        rw [← List.append_assoc]
        cases ended : Machine.evalForm fuel form m₁ with
        | ok value m₂ =>
            rw [ended] at done recording₂
            have rests := recording₂.resting.push (held₂ value m₂ ended)
            exact ih (recording₂.modifyBottom rests) done
        | error e m₂ =>
            rw [ended] at done recording₂
            cases e with
            | outOfFuel => cases done
            | failed e => exact ih recording₂ done

theorem Recording.evalText (recording : m.Recording completed) {fuel : Nat} {source : String}
    {results : List FormResult} (done : evalText fuel source m = some (results, m')) :
    m'.Recording (completed ++ completedByText fuel source m) := by
  unfold Machine.evalText at done
  dsimp only at done
  split at done
  · cases done
  · next found m₁ ran =>
      cases done
      have recording₁ := recording.evalForms ran
      exact recording₁.modifyBottom (recording₁.resting.drop _)

theorem Recording.intern (recording : m.Recording completed) (name : String) :
    (after (intern id name m)).Recording completed := by
  obtain ⟨rests, kept⟩ := recording.resting.intern name
  have same : after (Machine.intern id name m) =
      { m with store := after (Store.intern name m.store) } := after_onStore id _ m
  apply recording.still rests
  · rw [same]
  · rw [same]
    exact fun _ _ bound => bound
  · exact fun r _ live => kept r live

theorem Recording.ensureModule (recording : m.Recording completed) {name : Ref}
    (symbol : m.heap.isSymbol name = true) :
    (after (ensureModule id name m)).Recording completed := by
  obtain ⟨rests, kept⟩ := recording.resting.ensureModule symbol
  have enacts := enacts_ensureModule id recording.resting.safe.toOrderly symbol
  apply recording.still rests enacts.record
  · exact fun d cell bound => enacts.bound d cell (List.not_mem_nil) bound
  · exact fun r _ live => kept r live

theorem Recording.collectGarbage (recording : m.Recording completed) :
    m.collectGarbage.2.Recording completed := by
  obtain ⟨rests, kept⟩ := recording.resting.collectGarbage
  obtain ⟨journal, collected⟩ := collectGarbage_eq m
  apply recording.still rests
  · rw [collected]
    rfl
  · rw [collected]
    exact fun _ _ bound => bound
  · exact fun r member live => kept r (.root member live)

theorem Recording.takeDefinitions (recording : m.Recording completed) :
    m.takeDefinitions.2.Recording [] :=
  ⟨recording.resting.takeDefinitions, rfl, nofun⟩

theorem recording_boot {config : Config} {level : Option NoteLevel} (booted : boot config level = .ok m) :
    m.Recording [] := by
  have record : (blank config level).SameRecord (after (setUp (blank config level))) := by
    refine after_bind (sameRecord_onStore id _ rfl) fun truth m₁ _ step₁ => ?_
    refine after_bind step₁ fun _ m₂ set step₂ => ?_
    refine after_bind (sameRecord_onStore id _ step₂) fun name m₃ _ step₃ => ?_
    have created := Eq.trans (sameRecord_ensureModule id name) step₃
    exact after_bind created fun user m₄ _ step₄ => step₄
  refine ⟨.boot booted, ?_, nofun⟩
  unfold boot at booted
  split at booted
  · next m₁ done =>
      cases booted
      rw [done] at record
      exact congrArg Array.toList record
  · cases booted

/-- The record holds what the history says. -/
theorem History.recording (history : m.History completed) : m.Recording completed := by
  induction history with
  | boot booted => exact recording_boot booted
  | readForm reader _ ih => exact ih.readForm reader
  | evalForm _ held ih => exact ih.evalForm _ held
  | evalText _ done ih => exact ih.evalText done
  | intern name _ ih => exact ih.intern name
  | ensureModule _ symbol ih => exact ih.ensureModule symbol
  | collectGarbage _ ih => exact ih.collectGarbage
  | takeDefinitions _ ih => exact ih.takeDefinitions

/-! ## Superseded code -/

/-- A collection frees every cell in use that is out of reach. -/
theorem Resting.collectGarbage_frees (resting : m.Resting) {cell : Ref} (live : m.heap.Live cell)
    (lost : ¬ m.heap.Reachable m.roots cell) :
    ∃ next, m.collectGarbage.2.heap.cell? cell = some (.free next) := by
  obtain ⟨journal, collected⟩ := collectGarbage_eq m
  rw [collected]
  change ∃ next, (m.heap.collect m.roots).2.cell? cell = some (.free next)
  refine (Heap.cell?_collect_cases m.heap m.roots cell).resolve_left fun same => lost ?_
  obtain ⟨contents, found, used⟩ := live
  have kept : (m.heap.collect m.roots).2.Live cell := ⟨contents, same.trans found, used⟩
  exact ((Heap.live_collect_iff resting.intact.tidy.unmarked cell).1 kept).2

/-- A definition that completes again is bound to another cell, and the code that it had stays
    in its cell until the next collection. -/
theorem Resting.supersedes (resting : m.Resting) {fuel : Nat} {d : Definition} {old : Ref} {code : Code}
    (bound : m.registry.function? d.1 d.2 = some old) (held : m.heap.code? old = some code)
    (again : d ∈ completedByForm fuel form m) :
    (after (evalForm fuel form m)).registry.function? d.1 d.2 ≠ some old ∧
      (after (evalForm fuel form m)).heap.code? old = some code := by
  have reached : m.heap.Reachable m.roots old :=
    .root (mem_roots_of_function? bound) (Heap.live_of_code? held)
  have prepared := Heap.code?_congr (resting.collectIfDue_keeps form reached)
  have same := Heap.code?_congr (resting.evalFormWith_keeps (serve fuel) fuel form reached)
  refine ⟨fun unchanged => ?_, same.trans held⟩
  -- The old cell was in use when the evaluation began, the new one was not.
  obtain ⟨new, code', renewed, _, fresh⟩ := (enacts_evalForm fuel form resting.safe).renewed d again
  rw [unchanged] at renewed
  cases renewed
  exact fresh (Heap.live_of_code? (prepared.trans held))

/-- In every history the record yields one cell for each definition that has completed since it
    was taken the last time, in the order of first completion: the cell of the code that the
    name is bound to. Code that a definition supersedes is freed by the next collection unless
    it is still within reach, and so is all code that comes out of reach in any other way. -/
theorem definitions_are_tracked (history : m.History completed) :
    m.takeDefinitions.1.map some =
      completed.eraseDups.map (fun d => m.registry.function? d.1 d.2) ∧
    (∀ cell ∈ m.takeDefinitions.1, ∃ code, m.heap.code? cell = some code) ∧
    (∀ fuel form m', after (evalForm fuel form m) = m' → m.heap.Held form →
      ∀ d ∈ completedByForm fuel form m, ∀ old code, m.registry.function? d.1 d.2 = some old →
        m.heap.code? old = some code →
        ∃ new code', m'.registry.function? d.1 d.2 = some new ∧ m'.heap.code? new = some code' ∧
          new ≠ old ∧ (¬ m'.heap.Reachable m'.roots old →
            ∃ next, m'.collectGarbage.2.heap.cell? old = some (.free next))) ∧
    ∀ cell code, m.heap.code? cell = some code → ¬ m.heap.Reachable m.roots cell →
      ∃ next, m.collectGarbage.2.heap.cell? cell = some (.free next) := by
  have recording := history.recording
  have resting := recording.resting
  have bound : ∀ d ∈ m.defined.toList, ∃ cell code, m.registry.function? d.1 d.2 = some cell ∧
      m.heap.code? cell = some code := by
    intro d member
    rw [recording.record, List.mem_eraseDups] at member
    exact recording.coded d member
  refine ⟨?_, fun cell member => ?_, ?_, fun cell code held => ?_⟩
  · rw [← recording.record]
    refine List.map_filterMap.trans (List.filterMap_eq_map_iff_forall_eq_some.2 fun d inside => ?_)
    obtain ⟨cell, code, found, held⟩ := bound d inside
    rw [found]
    exact congrArg (Option.map some) found
  · obtain ⟨d, inside, found⟩ := List.mem_filterMap.1 member
    obtain ⟨cell', code, same, held⟩ := bound d inside
    cases same.symm.trans found
    exact ⟨code, held⟩
  · rintro fuel form _ rfl known d again old code before held
    have later := recording.evalForm fuel known
    obtain ⟨new, code', after', held'⟩ := later.coded d (List.mem_append_right _ again)
    obtain ⟨other, kept⟩ := resting.supersedes before held again
    refine ⟨new, code', after', held', fun same => other (same ▸ after'), fun lost => ?_⟩
    exact later.resting.collectGarbage_frees (Heap.live_of_code? kept) lost
  · exact resting.collectGarbage_frees (Heap.live_of_code? held)

/-- Whether, in a fresh machine, a text completes two definitions, and a form after it completes
    one that is bound, so that a collection frees the code that was bound before. -/
def replaces (source again : String) : Bool :=
  match boot { arenaSize := 64 } none with
  | .error _ => false
  | .ok m =>
      match evalText 100 source m with
      | none => false
      | some (_, m₁) =>
          match readForm (Reader.ofSource again) m₁ with
          | (.ok (some form), _, m₂) =>
              match completedByForm 100 form m₂ with
              | [] => false
              | d :: _ =>
                  match m₂.registry.function? d.1 d.2 with
                  | none => false
                  | some old =>
                      (completedByText 100 source m).length == 2 && (m₂.heap.code? old).isSome &&
                        ((after (evalForm 100 form m₂)).collectGarbage.2.heap.code? old).isNone
          | _ => false

theorem history_of_replaces {source again : String} (holds : replaces source again = true) :
    ∃ (m : Machine) (completed : List Definition) (form old : Ref) (d : Definition) (code : Code),
      m.History completed ∧ completed.length = 2 ∧ m.heap.Held form ∧
      d ∈ completedByForm 100 form m ∧ m.registry.function? d.1 d.2 = some old ∧
      m.heap.code? old = some code ∧
      (after (evalForm 100 form m)).collectGarbage.2.heap.code? old = none := by
  unfold replaces at holds
  split at holds
  · cases holds
  next m booted =>
  split at holds
  · cases holds
  next results m₁ ran =>
  split at holds
  on_goal 2 => cases holds
  next form reader m₂ read =>
  split at holds
  · cases holds
  next d rest completes =>
  split at holds
  · cases holds
  next old bound =>
  simp only [Bool.and_eq_true, beq_iff_eq, Option.isNone_iff_eq_none] at holds
  obtain ⟨⟨count, isCode⟩, freed⟩ := holds
  obtain ⟨code, held⟩ := Option.isSome_iff_exists.1 isCode
  have before : m₁.History (completedByText 100 source m) := (History.boot booted).evalText ran
  have history := before.readForm (Reader.ofSource again)
  have known := (before.recording.resting.readForm _).2 form (by rw [read])
  rw [read] at history known
  exact ⟨m₂, _, form, old, d, code, history, count, known, by simp [completes], bound, held, freed⟩

/-- Two modules define `f`, and the form after the definition in the first of them fails; then
    a function takes the place of the macro. -/
theorem definitions_are_tracked_sample :
    ∃ (m : Machine) (completed : List Definition) (form old : Ref) (d : Definition),
      m.History completed ∧ completed.length = 2 ∧
      m.takeDefinitions.1.map some =
        completed.eraseDups.map (fun d => m.registry.function? d.1 d.2) ∧
      m.registry.function? d.1 d.2 = some old ∧ d ∈ completedByForm 100 form m ∧
      ∃ next, (after (evalForm 100 form m)).collectGarbage.2.heap.cell? old = some (.free next) := by
  have holds : replaces "(module a (defun f () 1) x) (defmacro f () 2)" "(defun f () 3)" = true := by
    decide +kernel
  obtain ⟨m, completed, form, old, d, code, history, count, known, again, bound, held, freed⟩ :=
    history_of_replaces holds
  have later := (history.recording.evalForm 100 known).resting
  have kept := (history.recording.resting.supersedes bound held again).2
  have lost : ¬ (after (evalForm 100 form m)).heap.Reachable (after (evalForm 100 form m)).roots old := by
    intro reached
    have same := (Heap.code?_congr (later.collectGarbage.2 old reached)).trans kept
    cases freed.symm.trans same
  obtain ⟨record, _, superseded, _⟩ := definitions_are_tracked history
  obtain ⟨new, code', _, _, _, frees⟩ := superseded 100 form _ rfl known d again old code bound held
  exact ⟨m, completed, form, old, d, history, count, record, bound, again, frees lost⟩

end

end Machine

end LispMachine
