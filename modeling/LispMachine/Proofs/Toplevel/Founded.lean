import LispMachine.Proofs.Compiler.Building
import LispMachine.Proofs.Reader.Building
import LispMachine.Proofs.Toplevel.Handles

/-!
# Data without a cycle

Whatever is done with a machine between forms, a new cell refers to cells that were in use
before it. A collection takes cells away, and their places are given to new cells. So no
cell is reached from itself, although a place may be above or below that of a child, and
each walk through a value ends.
-/

namespace LispMachine

open Compile

namespace Machine

/-! ## Modules -/

/-- Only cells that refer to none are added. -/
def Plants {ε α : Type} (action : EStateM ε Machine α) : Prop :=
  ∀ m : Machine, m.heap.WellFormed → m.heap.Builds (LispMachine.after (action m)).heap

section

variable {ε α β : Type} {f : HeapError → ε}

theorem Plants.bind {action : EStateM ε Machine α} {next : α → EStateM ε Machine β}
    (first : Plants action) (second : ∀ a, Plants (next a)) : Plants (action >>= next) := by
  intro m wf
  have before := first m wf
  rw [bind_apply]
  cases done : action m with
  | ok a m' =>
      rw [done] at before
      exact before.trans (second a m' (before.wellFormed wf))
  | error e m' =>
      rw [done] at before
      exact before

theorem plants_pure (a : α) : Plants (pure a : EStateM ε Machine α) := fun _ _ => .refl _

/-- Changes that leave the heap alone. -/
theorem plants_modify {g : Machine → Machine} (same : ∀ m, (g m).heap = m.heap) :
    Plants (modify g : EStateM ε Machine PUnit) := by
  intro m _
  rw [modify_apply, after_ok, same]
  exact .refl _

theorem plants_get {next : Machine → EStateM ε Machine β} (second : ∀ m, Plants (next m)) :
    Plants (get >>= next) := fun m wf => second m m wf

theorem after_onHeap (action : EStateM HeapError Heap α) (m : Machine) :
    (after (onHeap f action m)).heap = after (action m.heap) := by
  rw [onHeap_apply]
  cases action m.heap <;> rfl

theorem plants_alloc {s : Scalar} (leaf : s.children = []) :
    Plants (onHeap f (Heap.allocScalar s)) := by
  intro m wf
  rw [after_onHeap]
  exact Heap.builds_alloc wf rfl (by simp [Cell.children, leaf])

theorem plants_intern (name : String) : Plants (intern f name) := by
  intro m wf
  have same : (after (intern f name m)).heap = (after (Store.intern name m.store)).heap := by
    simp only [intern, onStore]
    cases Store.intern name m.store <;> rfl
  rw [same, Store.intern_apply]
  cases m.store.lookup name with
  | some cell => exact .refl _
  | none =>
      have builds : m.heap.Builds (after (Heap.alloc (.scalar (.symbol name)) m.heap)) :=
        Heap.builds_alloc wf rfl (by simp [Cell.children, Scalar.children])
      dsimp only
      cases done : Heap.alloc (.scalar (.symbol name)) m.store.heap <;> rw [done] at builds <;>
        exact builds

theorem plants_createModule (name : Ref) : Plants (createModule f name) := by
  refine plants_get fun m => Plants.bind (fun m' wf => ?_) fun created => ?_
  · rw [after_onHeap]
    have builds : m'.heap.Builds (after (Heap.allocScalar (.moduleCell m.registry.size) m'.heap)) :=
      Heap.builds_alloc wf rfl (by simp [Cell.children, Scalar.children])
    simp only [Registry.create, bind_apply]
    cases done : Heap.allocScalar (.moduleCell m.registry.size) m'.heap <;> rw [done] at builds <;>
      exact builds
  · rcases created with ⟨id, registry⟩
    exact Plants.bind (plants_modify fun _ => rfl) fun _ => plants_pure _

theorem plants_installNatives (id : ModuleId) (natives : List Native) :
    Plants (installNatives f id natives) := by
  induction natives with
  | nil => exact plants_pure ()
  | cons native rest ih =>
      refine Plants.bind ?_ fun _ => ih
      refine (plants_intern _).bind fun name => (plants_alloc rfl).bind fun cell => ?_
      exact plants_modify fun _ => rfl

theorem note_heap (m : Machine) (level : NoteLevel) (text : Machine → String) :
    (m.note level text).heap = m.heap := by
  obtain ⟨journal, noted⟩ := note_eq m level text
  rw [noted]
  rfl

theorem plants_ensureModule (name : Ref) : Plants (ensureModule f name) := by
  refine plants_get fun m => ?_
  split
  · exact plants_pure _
  · refine (plants_createModule name).bind fun id => (plants_installNatives id _).bind fun _ => ?_
    refine Plants.bind (plants_modify fun _ => rfl) fun _ => ?_
    exact Plants.bind (plants_modify fun m => note_heap m _ _) fun _ => plants_pure _

theorem plants_setUp : Plants setUp := by
  refine (plants_intern _).bind fun truth => Plants.bind (plants_modify fun _ => rfl) fun _ => ?_
  refine (plants_intern _).bind fun name => (plants_ensureModule name).bind fun user => ?_
  exact plants_modify fun _ => rfl

end

/-! ## Forms -/

section

variable {ε α β : Type} {m m' : Machine} {form : Ref} {home : ModuleId}

theorem Raises.bind {x : EStateM ε Machine α} {f : α → EStateM ε Machine β}
    (first : m.Raises (LispMachine.after (x m)))
    (second : ∀ a m', x m = .ok a m' → m.Raises m' → m'.Raises (LispMachine.after (f a m'))) :
    m.Raises (LispMachine.after ((x >>= f) m)) := by
  rw [bind_apply]
  cases done : x m with
  | ok a m' =>
      rw [done] at first
      exact first.trans (second a m' done first)
  | error e m' =>
      rw [done] at first
      exact first

/-- Code that was compiled refers to cells in use. -/
theorem children_of_compiled {limit : Stop CompileError → Prop} {x : Action CompileError Code}
    {code : Code} (intact : m.Intact)
    (mirrors : Mirrors (Still true (m, m)) limit m.heap.selfTies
      (fun ties => Code.Resembles (Tied ties)) x x) (done : x m = .ok code m') :
    ∀ r ∈ code.children, m'.heap.Held r := by
  obtain ⟨ties, twins, same⟩ := intact.related mirrors done
  intro r member
  obtain ⟨_, tied⟩ := same.child member
  exact twins.held tied

/-- A cell for scalars whose children are in use. -/
theorem Intact.alloc (intact : m.Intact) {f : HeapError → ε} {s : Scalar}
    (same : s.Resembles (Tied m.heap.selfTies) s) (held : ∀ r ∈ s.children, m.heap.Held r) :
    m.Raises (LispMachine.after (onHeap f (Heap.allocScalar s) m)) ∧
      ∀ cell m', onHeap f (Heap.allocScalar s) m = .ok cell m' → m'.heap.Held cell := by
  have mirrors := @still_alloc ε (fun _ => True) (m, m) true m.heap.selfTies f (fun _ => trivial) s s same
  refine ⟨⟨?_, (intact.after mirrors).1⟩, fun cell m' done => ?_⟩
  · rw [after_onHeap]
    exact Heap.builds_alloc intact.tidy.wellFormed rfl held
  · obtain ⟨ties, twins, tied⟩ := intact.related mirrors done
    exact twins.held tied

theorem Intact.definitionParts (intact : m.Intact) (form : Ref) :
    m.Raises (LispMachine.after (Machine.definitionParts form m)) ∧
      ∀ parts m', Machine.definitionParts form m = .ok parts m' → m' = m ∧
        ∀ r ∈ parts, m.heap.Held r := by
  unfold Machine.definitionParts
  cases listed : m.heap.items? form with
  | none =>
      dsimp only
      split <;> exact ⟨intact.refl, by rintro _ _ ⟨⟩⟩
  | some parts =>
      refine ⟨intact.refl, ?_⟩
      rintro _ _ ⟨⟩
      exact ⟨rfl, fun r member => intact.tidy.closed.below (Heap.below_of_items? listed member)⟩

theorem Intact.expectName (intact : m.Intact) (name : Ref) (context : String) :
    m.Raises (LispMachine.after (Machine.expectName name context m)) ∧
      ∀ a m', Machine.expectName name context m = .ok a m' → m' = m := by
  unfold Machine.expectName
  split
  · exact ⟨intact.refl, by rintro _ _ ⟨⟩; rfl⟩
  · exact ⟨intact.refl, by rintro _ _ ⟨⟩⟩

theorem Intact.define (intact : m.Intact) {name cell : Ref} (known : m.heap.Held name)
    (held : m.heap.Held cell) : m.Raises (Machine.define home name cell m) := by
  refine ⟨?_, (intact.after (evaluated_define home known.tied held.tied)).1⟩
  obtain ⟨journal, eq⟩ := define_eq home name cell m
  rw [eq]
  exact .refl _

/-- A definition adds the cell of its code. -/
theorem Intact.evalDefinition (intact : m.Intact) (host : Host) (fuel : Nat) {wrapCode : Code → Scalar}
    (wraps : ∀ (ties : Ties) (c d : Code), c.Resembles (Tied ties) d →
      (wrapCode c).Resembles (Tied ties) (wrapCode d))
    (refers : ∀ code, (wrapCode code).children = code.children) :
    m.Raises (LispMachine.after (Machine.evalDefinition host fuel wrapCode home form m)) := by
  obtain ⟨first, taken⟩ := intact.definitionParts form
  refine first.bind fun parts m₁ done _ => ?_
  obtain ⟨rfl, held⟩ := taken parts m₁ done
  split
  · next _ name params body =>
      obtain ⟨second, same⟩ := intact.expectName name "function name"
      refine second.bind fun _ m₂ done _ => ?_
      obtain rfl := same _ m₂ done
      have known : m₂.heap.Held name := held name (by simp)
      have bodies : ∀ r ∈ body, m₂.heap.Held r := fun r member => held r (by simp [member])
      have compiled := Compile.function_raises (expandWith_raises host fuel) fuel home name params
        intact bodies
      refine Raises.bind (by rw [after_wrap]; exact compiled) fun code m₃ done raises => ?_
      have children := children_of_compiled intact (Compile.mirrored_function
        (Compile.sameExpand_expandWith host host fuel fuel) fuel fuel home known.tied
        (held params (by simp)).tied (forall₂_tied bodies)) (wrap_ok done)
      have cells := raises.intact.alloc (f := EvalError.ofHeap)
        (wraps _ code code (Code.resembles_self fun r member => (children r member).tied))
        (by rw [refers]; exact children)
      refine cells.1.bind fun cell m₄ done raises' => ?_
      exact raises'.intact.define (raises'.held (raises.held known)) (cells.2 cell m₄ done)
  · exact intact.refl

/-- An expression adds the cell of its code and what its run adds. -/
theorem Intact.evalExpression (intact : m.Intact) (host : Host) (fuel : Nat)
    (held : m.heap.Held form) :
    m.Raises (LispMachine.after (Machine.evalExpression host fuel home form m)) := by
  have compiled := Compile.toplevel_raises (expandWith_raises host fuel) fuel home intact held
  refine Raises.bind (by rw [after_wrap]; exact compiled) fun code m₁ done raises => ?_
  have children := children_of_compiled intact (Compile.mirrored_toplevel
    (Compile.sameExpand_expandWith host host fuel fuel) fuel fuel home held.tied) (wrap_ok done)
  have cells := raises.intact.alloc (f := EvalError.ofHeap) (s := .function code)
    (.function (Code.resembles_self fun r member => (children r member).tied)) children
  refine cells.1.bind fun cell m₂ done raises' => ?_
  rw [after_wrap]
  have none_ : ∀ r ∈ ([] : List Ref), m₂.heap.Held r := nofun
  obtain ⟨builds, intact'⟩ := raises'.intact.applyWith host fuel (cells.2 cell m₂ done) none_
  exact ⟨builds, intact'⟩

theorem Intact.defineVariable (intact : m.Intact) {name value : Ref} (known : m.heap.Held name)
    (held : m.heap.Held value) :
    m.Raises (LispMachine.after (Machine.defineVariable home name value m)) := by
  refine ⟨?_, (intact.after (evaluated_defineVariable home known.tied held.tied)).1⟩
  simp only [Machine.defineVariable, bind_apply, modify_apply, pure_apply, after_ok, note_heap]
  exact .refl _

theorem Intact.evalVariable (intact : m.Intact) (host : Host) (fuel : Nat) :
    m.Raises (LispMachine.after (Machine.evalVariable host fuel home form m)) := by
  obtain ⟨first, taken⟩ := intact.definitionParts form
  refine first.bind fun parts m₁ done _ => ?_
  obtain ⟨rfl, held⟩ := taken parts m₁ done
  have named : ∀ name, m₁.Raises (LispMachine.after (Machine.expectName name "variable name" m₁)) ∧
      ∀ a m', Machine.expectName name "variable name" m₁ = .ok a m' → m' = m₁ :=
    fun name => intact.expectName name "variable name"
  split
  · next _ name =>
      refine (named name).1.bind fun _ m₂ done _ => ?_
      obtain rfl := (named name).2 _ m₂ done
      exact intact.defineVariable (held name (by simp)) (.inl rfl)
  · next _ name value =>
      refine (named name).1.bind fun _ m₂ done _ => ?_
      obtain rfl := (named name).2 _ m₂ done
      have given : m₂.heap.Held value := held value (by simp)
      refine (intact.evalExpression host fuel given).bind fun result m₃ done raises => ?_
      obtain ⟨ties, twins, tied⟩ :=
        intact.related (evaluated_expression host host fuel fuel home given.tied) done
      exact raises.intact.defineVariable (raises.held (held name (by simp))) (twins.held tied)
  · exact intact.refl

theorem Intact.evalEach {evalForm : Ref → Action EvalError Ref}
    (forms : ∀ (m : Machine) (form : Ref), m.Intact → m.heap.Held form →
      m.Raises (LispMachine.after (evalForm form m))) {items : List Ref} (intact : m.Intact)
    (held : ∀ r ∈ items, m.heap.Held r) :
    m.Raises (LispMachine.after (Machine.evalEach evalForm items m)) := by
  induction items generalizing m with
  | nil => exact intact.refl
  | cons item items ih =>
      refine (forms m item intact (held item List.mem_cons_self)).bind fun _ m₁ _ raises => ?_
      exact ih raises.intact fun r member => raises.held (held r (List.mem_cons_of_mem _ member))

theorem Intact.ensureModule (intact : m.Intact) {f : HeapError → ε} {name : Ref}
    (held : m.heap.Held name) : m.Raises (LispMachine.after (Machine.ensureModule f name m)) :=
  ⟨plants_ensureModule name m intact.tidy.wellFormed,
    (intact.after (@still_ensureModule ε (fun _ => True) _ true _ f (fun _ => trivial) _ _ held.tied)).1⟩

theorem Intact.evalModule {evalIn : ModuleId → Ref → Action EvalError Ref}
    (forms : ∀ (id : ModuleId) (m : Machine) (form : Ref), m.Intact → m.heap.Held form →
      m.Raises (LispMachine.after (evalIn id form m))) (intact : m.Intact) :
    m.Raises (LispMachine.after (Machine.evalModule evalIn form m)) := by
  obtain ⟨first, taken⟩ := intact.definitionParts form
  refine first.bind fun parts m₁ done _ => ?_
  obtain ⟨rfl, held⟩ := taken parts m₁ done
  split
  · next _ name body =>
      rw [bind_apply, get_apply]
      dsimp only
      split
      · refine (intact.ensureModule (held name (by simp))).bind fun id m₂ _ raises => ?_
        have bodies : ∀ r ∈ body, m₂.heap.Held r := fun r member =>
          raises.held (held r (by simp [member]))
        have each := raises.intact.evalEach (forms id) bodies
        exact each.bind fun _ m₃ _ raises' => raises'.intact.refl
      · exact intact.refl
  · exact intact.refl

/-- Evaluating a form builds on the heap. -/
theorem Intact.evalIn (intact : m.Intact) (host : Host) (fuel : Nat) (home : ModuleId)
    (held : m.heap.Held form) :
    m.Raises (LispMachine.after (Machine.evalIn host fuel home form m)) := by
  induction fuel generalizing m home form with
  | zero => exact intact.refl
  | succ fuel ih =>
      simp only [Machine.evalIn, bind_apply, get_apply]
      cases m.headKeyword? form with
      | none => exact intact.evalExpression host fuel held
      | some keyword =>
          cases keyword with
          | defineFunction =>
              exact intact.evalDefinition host fuel (fun _ _ _ same => .function same) fun _ => rfl
          | defineExpander =>
              exact intact.evalDefinition host fuel (fun _ _ _ same => .expander same) fun _ => rfl
          | defineVariable => exact intact.evalVariable host fuel
          | inModule => exact intact.evalModule fun id m form intact held => ih intact id held
          | _ => exact intact.evalExpression host fuel held

end

/-! ## Uses -/

section

variable {m m' : Machine} {form : Ref}

/-- A collection leaves an intact machine. -/
theorem Intact.swept (intact : m.Intact) {heap : Heap} (sweeps : m.heap.Sweeps m.roots heap)
    (journal : Journal) : ((m.withHeap heap).withJournal journal).Intact where
  tidy := sweeps.tidy
  held r member := (intact.held r member).imp id (sweeps.root r member)
  truth := intact.truth
  named := intact.named

/-- What a form leaves is founded: a collection may come before it, and the evaluation
    builds on what is left. -/
theorem Resting.evalFormWith_founded (resting : m.Resting) (founded : m.heap.Founded) (host : Host)
    (fuel : Nat) (held : m.heap.Held form) :
    (after (Machine.evalFormWith host fuel form m)).heap.Founded := by
  have pushed := (resting.push held).intact
  rw [modifyBottom_push resting.idle] at pushed
  obtain ⟨heap, journal, collected, sweeps⟩ := collectIfDue_eq _ pushed.tidy
  have kept : heap.Founded := founded.of_kept sweeps.kept
  have intact := pushed.swept sweeps journal
  have held' : heap.Held form :=
    held.imp id (sweeps.root form (mem_stack_roots List.mem_cons_self))
  have left : ∀ home, (after (Machine.evalIn host fuel home form
      (((m.withTop (m.top.push form)).withHeap heap).withJournal journal))).heap.Founded :=
    fun home => (intact.evalIn host fuel home held').founded intact kept
  have unwound : ∀ (m : Machine) (height : Nat), (m.unwindTo height).heap = m.heap :=
    fun m height => (congrArg Machine.heap (unwindTo_bare height m)).symm
  unfold Machine.evalFormWith
  dsimp only
  rw [modifyBottom_push resting.idle, collected]
  have ended := left (((m.withTop (m.top.push form)).withHeap heap).withJournal journal).user
  generalize Machine.evalIn host fuel _ form _ = result at ended ⊢
  cases result with
  | ok value m' =>
      rw [after_ok, unwound]
      exact ended
  | error e m' =>
      obtain ⟨journal', noted⟩ := noteFailure_eq e m'
      rw [after_error, unwound, noted]
      exact ended

theorem Resting.readForm_founded (resting : m.Resting) (founded : m.heap.Founded) (reader : Reader) :
    (Machine.readForm reader m).2.2.heap.Founded := by
  have firm : m.store.Firm :=
    ⟨resting.intact.tidy.wellFormed, fun r member => resting.intact.held r (mem_symbol_roots member)⟩
  have none_ : ∀ r ∈ ([] : List Context).flatMap Context.refs, m.store.heap.Held r := by simp
  have builds := Reader.readFrom_builds reader.length reader.ahead firm none_
  have same : (Machine.readForm reader m).2.2.heap =
      (after (Reader.readFrom reader.length [] reader.ahead m.store)).2.heap := by
    simp only [Machine.readForm, Reader.read]
    cases Reader.readFrom reader.length [] reader.ahead m.store <;> rfl
  rw [same]
  exact builds.founded resting.intact.tidy.closed founded

theorem Resting.evalForms_founded (resting : m.Resting) (founded : m.heap.Founded) {fuel count : Nat}
    {reader : Reader} {results all : List FormResult}
    (done : Machine.evalForms fuel count reader results m = some (all, m')) : m'.heap.Founded := by
  induction count generalizing reader results m with
  | zero =>
      cases done
      exact founded
  | succ count ih =>
      obtain ⟨rests₁, held⟩ := resting.readForm reader
      have founded₁ := resting.readForm_founded founded reader
      unfold Machine.evalForms at done
      rcases read : Machine.readForm reader m with ⟨outcome, reader₁, m₁⟩
      rw [read] at done rests₁ held founded₁
      rcases outcome with e | _ | form
      · cases done
        exact founded₁
      · cases done
        exact founded₁
      · dsimp only at done
        obtain ⟨rests₂, held₂⟩ := rests₁.evalFormWith (serve fuel) fuel (held form rfl)
        have founded₂ := rests₁.evalFormWith_founded founded₁ (serve fuel) fuel (held form rfl)
        unfold evalForm at done
        cases ended : Machine.evalFormWith (serve fuel) fuel form m₁ with
        | ok value m₂ =>
            rw [ended] at done rests₂ founded₂
            refine ih (rests₂.push (held₂ value m₂ ended)) ?_ done
            rw [modifyBottom_push rests₂.idle]
            exact founded₂
        | error e m₂ =>
            rw [ended] at done rests₂ founded₂
            cases e with
            | outOfFuel => cases done
            | failed e => exact ih rests₂ founded₂ done

theorem Resting.evalText_founded (resting : m.Resting) (founded : m.heap.Founded) {fuel : Nat}
    {source : String} {results : List FormResult}
    (done : Machine.evalText fuel source m = some (results, m')) : m'.heap.Founded := by
  unfold Machine.evalText at done
  dsimp only at done
  split at done
  · cases done
  · next found m₁ ran =>
      cases done
      obtain ⟨rests₁, _⟩ := resting.evalForms ran
      have ended := resting.evalForms_founded founded ran
      rw [modifyBottom_idle rests₁.idle]
      exact ended

/-- Each use keeps the heap founded. -/
theorem Uses.founded {rests : List Machine} (uses : m.Uses rests m') (resting : m.Resting)
    (founded : m.heap.Founded) : m'.heap.Founded := by
  have closed := resting.intact.tidy.closed
  have wf := resting.intact.tidy.wellFormed
  cases uses with
  | readForm reader => exact resting.readForm_founded founded reader
  | @evalForm fuel form held _ => exact resting.evalFormWith_founded founded (serve fuel) fuel held
  | evalText done => exact resting.evalText_founded founded done
  | intern name => exact (plants_intern name m wf).founded closed founded
  | @ensureModule name _ => exact (plants_ensureModule name m wf).founded closed founded
  | takeDefinitions => exact founded
  | collectGarbage =>
      obtain ⟨journal, collected⟩ := collectGarbage_eq m
      rw [collected]
      exact founded.of_kept (Heap.sweeps_collect resting.intact.tidy m.roots).kept

theorem founded_boot {config : Config} {level : Option NoteLevel} (booted : boot config level = .ok m) :
    m.heap.Founded := by
  have tidy := tidy_ofConfig config
  have empty : (Heap.ofConfig config).Founded := by
    refine ⟨fun r => Heap.acc_of_not_live ?_⟩
    rintro ⟨cell, found, _⟩
    rcases r.null_or_ofSlot with rfl | ⟨slot, rfl⟩ <;>
      simp [Heap.ofConfig, Heap.ofArenaSize] at found
  have builds := plants_setUp (blank config level) tidy.wellFormed
  unfold boot at booted
  cases done : setUp (blank config level) with
  | error e m₁ =>
      rw [done] at booted
      cases booted
  | ok _ m₁ =>
      rw [done] at booted builds
      cases booted
      exact builds.founded tidy.closed empty

theorem InUse.founded (inUse : m.InUse) : m.heap.Founded := by
  induction inUse with
  | boot booted => exact founded_boot booted
  | use before uses ih => exact uses.founded before.resting ih

end

/-! ## Walks -/

section

variable {m : Machine}

/-- In every state that a fresh machine reaches, no cell is reached from itself through its
    children. So the text of each value is found within the bound of the printer, following
    a list comes to an end, and compiling forms without macro calls comes to an end. -/
theorem data_has_no_cycle (inUse : m.InUse) :
    WellFounded m.heap.Child ∧
    (∀ r bound, m.heap.cells.size + 2 ≤ bound →
      Printer.write m.heap m.registry bound "" r = some (m.display r)) ∧
    (∀ r, ∃ items last, m.heap.Spine r items last ∧
      m.heap.items? r = if last.isNull then some items else none) ∧
    ∀ (home : ModuleId) (fuel : Nat), m.heap.cells.size < fuel →
      (∀ form, (∀ call : MacroCall, m.heap.Evaluates form call.form → ¬ m.CallsMacro home call) →
        ∀ m', compileToplevel fuel home form m ≠ .error .outOfFuel m') ∧
      ∀ name params body, (∀ form ∈ body, ∀ call : MacroCall, m.heap.Evaluates form call.form →
          ¬ m.CallsMacro home call) →
        ∀ m', compileFunction fuel home name params body m ≠ .error .outOfFuel m' := by
  have founded := inUse.founded
  refine ⟨founded, fun r bound large => ?_, fun r => (founded.acyclic r).items?, fun home fuel enough =>
    ⟨fun form noMacro => ?_, fun name params body noMacro => ?_⟩⟩
  · obtain ⟨text, steady⟩ : ∃ text, ∀ bound, m.heap.cells.size + 2 ≤ bound →
        Printer.write m.heap m.registry bound "" r = some text :=
      (Printer.write_of_within (founded.acyclic r).bounded "").1
    rw [steady bound large, display, Printer.display, steady _ (Nat.le_refl _)]
    rfl
  · exact Compile.toplevel_terminates enough (founded.acyclic form) noMacro
  · exact Compile.function_terminates enough (founded.acyclic params)
      (fun form _ => founded.acyclic form) noMacro name

/-- Whether some pair is below its first half and some pair above it, in the order of places. -/
def crosses (h : Heap) : Bool :=
  let pairs := (List.range h.cells.size).filterMap fun slot =>
    (h.pair? (.ofSlot slot)).map fun halves => (Ref.ofSlot slot, halves.1)
  pairs.any (fun p => p.1.index < p.2.index) && pairs.any fun p => 0 < p.2.index && p.2.index < p.1.index

/-- Whether the places of pairs and their halves are mixed after two texts in a fresh machine,
    with a collection in between. -/
def mixesPlaces (first second : String) : Bool :=
  match boot { arenaSize := 64 } none with
  | .error _ => false
  | .ok m =>
      match evalText 100 first m with
      | none => false
      | some (_, m) =>
          match evalText 100 second m.collectGarbage.2 with
          | none => false
          | some (_, m) => crosses m.heap

theorem children_of_crosses {h : Heap} (closed : h.Closed) (mixed : crosses h = true) :
    (∃ child parent, h.Child child parent ∧ parent.index < child.index) ∧
      ∃ child parent, h.Child child parent ∧ child.index < parent.index := by
  have edge : ∀ p : Ref × Ref, p ∈ ((List.range h.cells.size).filterMap fun slot =>
      (h.pair? (.ofSlot slot)).map fun halves => (Ref.ofSlot slot, halves.1)) →
      0 < p.2.index → h.Child p.2 p.1 := by
    rintro ⟨parent, child⟩ member positive
    obtain ⟨slot, _, found⟩ := List.mem_filterMap.1 member
    obtain ⟨⟨car, cdr⟩, halves, same⟩ := Option.map_eq_some_iff.1 found
    cases same
    have inside : car ∈ (Cell.pair car cdr).children := by simp [Cell.children]
    have held := Heap.pair?_eq_some.1 halves
    rcases closed _ _ held car inside with rfl | live
    · cases positive
    · exact ⟨live, _, held, inside⟩
  simp only [crosses, Bool.and_eq_true, List.any_eq_true, decide_eq_true_eq] at mixed
  obtain ⟨⟨p, member, above⟩, q, member', positive, below⟩ := mixed
  exact ⟨⟨p.2, p.1, edge p member (by omega), above⟩, q.2, q.1, edge q member' positive, below⟩

/-- A machine in which a cell is above its parent and another is below. -/
theorem data_has_no_cycle_mixed : ∃ m : Machine, m.InUse ∧
    (∃ child parent, m.heap.Child child parent ∧ parent.index < child.index) ∧
    (∃ child parent, m.heap.Child child parent ∧ child.index < parent.index) ∧
    WellFounded m.heap.Child := by
  have mixed : mixesPlaces "'(1 2 3) (defvar x '(3))" "(defvar z (cons x x))" = true := by
    decide +kernel
  unfold mixesPlaces at mixed
  split at mixed
  · cases mixed
  · next m booted =>
      split at mixed
      · cases mixed
      · next results m₁ ran =>
          split at mixed
          · cases mixed
          · next results' m₂ ran' =>
              have inUse : m₂.InUse :=
                .use (.use (.use (.boot booted) (.evalText ran)) (.collectGarbage m₁)) (.evalText ran')
              obtain ⟨above, below⟩ := children_of_crosses inUse.resting.intact.tidy.closed mixed
              exact ⟨m₂, inUse, above, below, (data_has_no_cycle inUse).1⟩

end

end Machine

end LispMachine
