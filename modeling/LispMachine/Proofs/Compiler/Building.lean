import LispMachine.Proofs.Compiler.Acceptance
import LispMachine.Proofs.Machine.Building
import LispMachine.Proofs.Machine.Fuel

/-!
# What compiling builds

A compilation changes the heap only where it runs macros, and it hands them parts of
the form that it compiles. So an intact machine stays intact, and its heap is built from
the one before.
-/

namespace LispMachine

open Compile

namespace Machine

/-- The code of a macro that is found refers to cells in use. -/
theorem Intact.macro_children {m : Machine} (intact : m.Intact) {home : ModuleId} {head : Ref}
    {code : Code} (found : macroOf? m home head = some code) : ∀ r ∈ code.children, m.heap.Held r := by
  unfold macroOf? at found
  split at found
  · split at found
    · split at found
      · next binding _ _ _ scalar =>
          cases found
          exact intact.tidy.closed binding _ (Heap.scalar?_eq_some.1 scalar)
      · cases found
    · cases found
  · cases found

/-- The second machine is intact, and its heap is built from that of the first. -/
structure Raises (m m' : Machine) : Prop where
  builds : m.heap.Builds m'.heap
  intact : m'.Intact

theorem Intact.refl {m : Machine} (intact : m.Intact) : m.Raises m := ⟨.refl _, intact⟩

theorem Raises.trans {a b c : Machine} (first : a.Raises b) (second : b.Raises c) : a.Raises c :=
  ⟨first.builds.trans second.builds, second.intact⟩

theorem Raises.held {m m' : Machine} (raises : m.Raises m') {r : Ref} (held : m.heap.Held r) :
    m'.heap.Held r := raises.builds.keeps.held held

theorem Raises.founded {m m' : Machine} (raises : m.Raises m') (intact : m.Intact)
    (founded : m.heap.Founded) : m'.heap.Founded :=
  raises.builds.founded intact.tidy.closed founded

/-- Notes have no influence. -/
theorem Raises.withJournal {m m' : Machine} (raises : m.Raises m') (journal : Journal) :
    m.Raises (m'.withJournal journal) :=
  ⟨raises.builds, raises.intact.tidy, raises.intact.held, raises.intact.truth, raises.intact.named⟩

end Machine

/-- Macros that are run on what a machine may hold build on its heap. -/
def Expand.Raises (expand : Expand) : Prop :=
  ∀ (m : Machine) (code : Code) (args : List Ref), m.Intact → (∀ r ∈ code.children, m.heap.Held r) →
    (∀ r ∈ args, m.heap.Held r) →
    m.Raises (after (expand code args m)) ∧
      ∀ value m', expand code args m = .ok value m' → m'.heap.Held value

theorem expandWith_raises (host : Host) (fuel : Nat) : Expand.Raises (Machine.expandWith host fuel) := by
  intro m code args intact known held
  obtain ⟨builds, intact', result⟩ := intact.expandWith host fuel known held
  exact ⟨⟨builds, intact'⟩, result⟩

namespace Compile

variable {home : ModuleId} {expand : Expand} {onMacro : MacroCall → Compile Unit}

/-- The step builds on the heap of an intact machine that may hold these cells. -/
def Raising {α : Type} (needs : List Ref) (action : Compile α) : Prop :=
  ∀ w : Workbench, w.machine.Intact → (∀ r ∈ needs, w.machine.heap.Held r) →
    w.machine.Raises (after (action w)).machine

theorem Outline.run_raises {emitForm : Ref → Compile Unit} {needs : Draft → String → Nat → Prop}
    {outline : Outline} {parts : List Ref} {w : Workbench}
    (forms : ∀ part, Raising [part] (emitForm part)) (intact : w.machine.Intact)
    (held : ∀ part ∈ parts, w.machine.heap.Held part)
    (serves : outline.Serves needs parts w.draft) :
    w.machine.Raises (after (outline.run emitForm onMacro w)).machine := by
  induction outline generalizing parts w with
  | done => exact intact.refl
  | fails error => exact intact.refl
  | write change rest ih => exact ih (w := ⟨w.machine, change w.draft⟩) intact held serves
  | look next ih => exact ih w.draft intact held serves
  | part first rest ih =>
      obtain ⟨later, rfl, serves⟩ := serves
      have here := forms first w intact (by simpa using held first List.mem_cons_self)
      rw [Outline.run_part, bind_apply]
      cases done : emitForm first w with
      | error e w₁ =>
          rw [done] at here
          exact here
      | ok _ w₁ =>
          rw [done] at here
          refine here.trans (ih here.intact (fun part member => ?_) (serves _))
          exact here.held (held part (List.mem_cons_of_mem _ member))
  | expand call => exact serves.elim

theorem emitForm_raises (calls : ∀ (call : MacroCall) (w : Workbench), w.machine.Intact →
      w.machine.CallsMacro home call → w.machine.heap.Held call.form →
      w.machine.Raises (after (onMacro call w)).machine) (fuel : Nat) (form : Ref) :
    Raising [form] (emitForm home onMacro fuel form) := by
  induction fuel generalizing form with
  | zero => exact fun w intact _ => intact.refl
  | succ fuel ih =>
      intro w intact held
      have held' := held form List.mem_cons_self
      rw [emitForm_succ]
      rcases Outline.ofForm_cases home w.machine form with ⟨call, rfl, found, outline⟩ | ⟨_, fits⟩
      · rw [outline]
        exact calls call w intact found held'
      · cases fits with
        | fails outline _ _ =>
            rw [outline]
            exact intact.refl
        | @serves parts found serves =>
            refine Outline.run_raises ih intact (fun part member => ?_) (serves _)
            exact intact.tidy.closed.below (Heap.HasPart.below ⟨parts, found, member⟩)

/-- What expanding a macro call once comes to, given what the macro comes to. -/
def expanded (call : MacroCall) (draft : Draft) (noted : Ref → Machine → Machine) :
    EStateM.Result (Stop RuntimeError) Machine Ref → EStateM.Result (Stop CompileError) Workbench Ref
  | .ok value m => .ok value ⟨noted value m, draft⟩
  | .error (.failed cause) m =>
      .error (.failed (.macroExpansion (m.display call.head) cause)) ⟨m, draft⟩
  | .error .outOfFuel m => .error .outOfFuel ⟨m, draft⟩

/-- The machine after the note that is taken of an expansion. -/
def notedExpansion (call : MacroCall) (value : Ref) (m : Machine) : Machine :=
  m.note .trace fun m => s!"expanded {m.display call.form} into {m.display value}"

theorem expandOnce_apply (expand : Expand) (call : MacroCall) (w : Workbench) :
    expandOnce expand call w =
      match itemsOf call.rest call.form "macro call" w.machine with
      | .error error => .error error w
      | .ok args =>
          expanded call w.draft (notedExpansion call) (expand call.code args w.machine) := by
  simp only [expandOnce, bind_apply, asks_listOf call.rest call.form "macro call" w]
  cases itemsOf call.rest call.form "macro call" w.machine with
  | error error => rfl
  | ok args =>
      rcases w with ⟨m, draft⟩
      simp only [onMachine]
      cases expand call.code args m with
      | ok value m => rfl
      | error e m => cases e <;> rfl

/-- Besides running the macro, an expansion writes to the journal at most. -/
theorem expanded_machine (call : MacroCall) (draft : Draft)
    (ran : EStateM.Result (Stop RuntimeError) Machine Ref) :
    ∃ journal, (after (expanded call draft (notedExpansion call) ran)).machine =
      (after ran).withJournal journal := by
  cases ran with
  | ok value m =>
      obtain ⟨journal, noted⟩ : ∃ journal, notedExpansion call value m = m.withJournal journal :=
        Machine.note_eq m .trace _
      exact ⟨journal, noted⟩
  | error e m => cases e <;> exact ⟨m.journal, rfl⟩

/-- Expanding a macro call builds on the heap. -/
theorem expandOnce_raises (raises : expand.Raises) {call : MacroCall} {w : Workbench}
    (intact : w.machine.Intact) (found : w.machine.CallsMacro home call) :
    w.machine.Raises (after (expandOnce expand call w)).machine ∧
      ∀ expansion w', expandOnce expand call w = .ok expansion w' → w'.machine.heap.Held expansion := by
  rw [expandOnce_apply]
  rcases itemsOf_cases call.rest call.form "macro call" w.machine with
    ⟨args, taken, listed⟩ | ⟨error, taken, _⟩
  · obtain ⟨after_, result⟩ := raises w.machine call.code args intact
      (intact.macro_children found.found)
      fun r member => intact.tidy.closed.below (Heap.below_of_items? listed member)
    rw [taken]
    dsimp only
    generalize expand call.code args w.machine = ran at after_ result
    obtain ⟨journal, left⟩ := expanded_machine call w.draft ran
    rw [left]
    refine ⟨after_.withJournal journal, fun expansion w' done => ?_⟩
    rw [done] at left
    cases ran with
    | error e m => cases e <;> cases done
    | ok value m =>
        cases done
        rw [after_ok] at left
        rw [left]
        exact result _ m rfl
  · rw [taken]
    exact ⟨intact.refl, by rintro _ _ ⟨⟩⟩

theorem emitAt_raises (raises : expand.Raises) (fuel levels : Nat) (form : Ref) :
    Raising [form] (emitAt home expand fuel levels form) := by
  induction levels generalizing form with
  | zero =>
      unfold emitAt
      refine emitForm_raises (fun _ w intact _ _ => ?_) fuel form
      exact intact.refl
  | succ levels ih =>
      unfold emitAt
      refine emitForm_raises (fun call w intact found held => ?_) fuel form
      obtain ⟨after_, result⟩ := expandOnce_raises raises intact found
      rw [bind_apply]
      cases done : expandOnce expand call w with
      | error e w₁ =>
          rw [done] at after_
          exact after_
      | ok expansion w₁ =>
          rw [done] at after_
          refine after_.trans (ih expansion w₁ after_.intact ?_)
          simpa using result expansion w₁ done

/-! ## Functions -/

/-- Why a function is refused before its body is compiled: its parameter list is not as it
    should be. -/
inductive Refusal (m : Machine) (params : Ref) : Stop CompileError → Prop where
  | definition (text : String) : Refusal m params (.failed (.malformedDefinition text))
  | obstacle {error : Stop CompileError} : Obstacle m params error → Refusal m params error

theorem Refusal.ne_recursion {m : Machine} {params : Ref} {error : Stop CompileError}
    (refusal : Refusal m params error) (depth : Nat) :
    error ≠ .failed (.macroRecursion depth) := by
  cases refusal with
  | definition text => rintro ⟨⟩
  | obstacle obstacle => exact obstacle.ne_recursion depth

theorem Refusal.failed_of_acyclic {m : Machine} {params : Ref} {error : Stop CompileError}
    (refusal : Refusal m params error) (acyclic : m.heap.Acyclic params) :
    ∃ own, error = .failed own := by
  cases refusal with
  | definition text => exact ⟨_, rfl⟩
  | obstacle obstacle =>
      obtain ⟨own, same, _⟩ := obstacle.malformed_of_within acyclic.bounded
      exact ⟨own, same⟩

/-- Binding parameters leaves the machine alone; a failure is about the parameter list. -/
theorem bindParameters_cases (params : Ref) (names : List Ref) (w : Workbench) :
    (∃ d, bindParameters params names w = .ok () ⟨w.machine, d⟩) ∨
      ∃ error d, bindParameters params names w = .error error ⟨w.machine, d⟩ ∧
        Refusal w.machine params error := by
  have refused : ∀ {name error}, symbolOf name "parameter" w.machine = .error error →
      Refusal w.machine params error := by
    intro name error failed
    unfold symbolOf at failed
    split at failed <;> cases failed
    exact .obstacle (.malformed rfl)
  induction names generalizing w with
  | nil => exact .inl ⟨w.draft, rfl⟩
  | cons name rest ih =>
      simp only [bindParameters, bind_apply, get_apply]
      split
      · split
        · exact .inr ⟨_, w.draft, rfl, .definition _⟩
        · next restName =>
            simp only [bind_apply, asks_expectSymbol restName "parameter" w]
            cases symbol : symbolOf restName "parameter" w.machine with
            | ok _ => exact .inl ⟨_, rfl⟩
            | error error => exact .inr ⟨error, w.draft, rfl, refused symbol⟩
        · exact .inr ⟨_, w.draft, rfl, .definition _⟩
      · simp only [bind_apply, asks_expectSymbol name "parameter" w]
        cases symbol : symbolOf name "parameter" w.machine with
        | ok _ => exact ih ⟨w.machine, _⟩ refused
        | error error => exact .inr ⟨error, w.draft, rfl, refused symbol⟩

/-- The outline of a whole function: its body and the return. -/
def Outline.whole (items : List Ref) : Outline := body items (plain .ret done)

theorem Outline.serves_whole (needs : Draft → String → Nat → Prop) (items : List Ref) (d : Draft) :
    (whole items).Serves needs items d := by
  have returned : ∀ d, (plain .ret done).Serves needs [] d := fun _ => rfl
  have served := serves_body items returned d
  rwa [List.append_nil] at served

theorem Outline.run_whole {emitForm : Ref → Compile Unit} (items : List Ref) :
    (whole items).run emitForm onMacro = emitBody emitForm items >>= fun _ => emit .ret := by
  rw [whole, run_body]
  rfl

/-- The code that is made of a draft when it is complete, or the failure before that. -/
def finished (name : Ref) (home : ModuleId) :
    EStateM.Result (Stop CompileError) Workbench Unit →
      EStateM.Result (Stop CompileError) Machine Code
  | .ok _ w => .ok (w.draft.finish name (w.machine.registry.cellOf home)) w.machine
  | .error e w => .error e w.machine

section

variable {name : Ref} {m : Machine} {result : EStateM.Result (Stop CompileError) Workbench Unit}

theorem toCode_eq (name : Ref) (work : Compile Unit) (m : Machine) :
    toCode name home work m = finished name home (work ⟨m, .empty⟩) := by
  unfold toCode
  cases work ⟨m, .empty⟩ <;> rfl

theorem after_finished : after (finished name home result) = (after result).machine := by
  cases result <;> rfl

theorem finished_error {e : Stop CompileError} :
    finished name home result = .error e m ↔ ∃ draft, result = .error e ⟨m, draft⟩ := by
  rcases result with ⟨_, w⟩ | ⟨e', machine, draft⟩ <;> simp [finished]

theorem terminates_finished_iff : Terminates (finished name home result) ↔ Terminates result := by
  constructor
  · rintro ends ⟨m', draft⟩ failed
    exact ends m' (finished_error.2 ⟨draft, failed⟩)
  · intro ends m' failed
    obtain ⟨draft, failed⟩ := finished_error.1 failed
    exact ends _ failed

end

/-- An expression is compiled as a body of its own. -/
theorem toplevel_eq (onMacro : MacroCall → Compile Unit) (fuel : Nat) (form : Ref) (m : Machine) :
    toplevel expand fuel home form m = finished .null home
      ((Outline.whole [form]).run (emitAt home expand fuel maxMacroDepth) onMacro ⟨m, .empty⟩) := by
  rw [Outline.run_whole, ← toCode_eq]
  simp only [toplevel, emitBody, emitMore, bind_assoc, pure_bind]

/-- The parameters of a function are bound, and then its body is compiled; or the function is
    refused before that. -/
theorem function_cases (home : ModuleId) (name params : Ref) (body : List Ref) (m : Machine) :
    (∃ names draft, m.heap.items? params = some names ∧
      bindParameters params names ⟨m, .empty⟩ = .ok () ⟨m, draft⟩ ∧
      ∀ (expand : Expand) (onMacro : MacroCall → Compile Unit) (fuel : Nat),
        function expand fuel home name params body m = finished name home
          ((Outline.whole body).run (emitAt home expand fuel maxMacroDepth) onMacro ⟨m, draft⟩)) ∨
    ∃ error, Refusal m params error ∧
      (∀ names draft, m.heap.items? params = some names →
        bindParameters params names ⟨m, .empty⟩ ≠ .ok () ⟨m, draft⟩) ∧
      ∀ (expand : Expand) (fuel : Nat),
        function expand fuel home name params body m = .error error m := by
  have asked := asks_listOf params params "parameter list" ⟨m, .empty⟩
  rcases itemsOf_cases params params "parameter list" m with
    ⟨names, taken, listed⟩ | ⟨error, taken, unlisted, obstacle⟩
  · rcases bindParameters_cases params names ⟨m, .empty⟩ with
      ⟨draft, bound⟩ | ⟨error, draft, refused, refusal⟩
    · refine .inl ⟨names, draft, listed, bound, fun expand onMacro fuel => ?_⟩
      rw [function, toCode_eq, Outline.run_whole]
      simp only [bind_apply, asked, taken, bound]
    · refine .inr ⟨error, refusal, fun names' draft' same bound => ?_, fun expand fuel => ?_⟩
      · cases listed.symm.trans same
        rw [refused] at bound
        cases bound
      · rw [function, toCode_eq]
        simp only [bind_apply, asked, taken, refused]
        rfl
  · refine .inr ⟨error, .obstacle obstacle, fun names draft same _ => ?_, fun expand fuel => ?_⟩
    · cases unlisted.symm.trans same
    · rw [function, toCode_eq]
      simp only [bind_apply, asked, taken]
      rfl

theorem toplevel_raises (raises : expand.Raises) (fuel : Nat) (home : ModuleId) {form : Ref}
    {m : Machine} (intact : m.Intact) (held : m.heap.Held form) :
    m.Raises (after (toplevel expand fuel home form m)) := by
  rw [toplevel_eq fun _ => emit .ret, after_finished]
  exact Outline.run_raises (emitAt_raises raises fuel maxMacroDepth) (w := ⟨m, .empty⟩) intact
    (by simpa using held) (Outline.serves_whole (fun _ _ _ => True) [form] _)

theorem function_raises (raises : expand.Raises) (fuel : Nat) (home : ModuleId) (name params : Ref)
    {body : List Ref} {m : Machine} (intact : m.Intact) (held : ∀ form ∈ body, m.heap.Held form) :
    m.Raises (after (function expand fuel home name params body m)) := by
  rcases function_cases home name params body m with ⟨_, draft, _, _, eq⟩ | ⟨_, _, _, eq⟩
  · rw [eq expand fun _ => emit .ret, after_finished]
    exact Outline.run_raises (emitAt_raises raises fuel maxMacroDepth) (w := ⟨m, draft⟩) intact held
      (Outline.serves_whole (fun _ _ _ => True) body _)
  · rw [eq]
    exact intact.refl

/-! ## Forms without macros -/

/-- Forms without a cycle and without macro calls are compiled to the end. -/
theorem whole_settled {m : Machine} {fuel : Nat} {items : List Ref} {d : Draft}
    (enough : m.heap.cells.size < fuel) (acyclic : ∀ form ∈ items, m.heap.Acyclic form)
    (noMacro : ∀ form ∈ items, ∀ call : MacroCall, m.heap.Evaluates form call.form →
      ¬ m.CallsMacro home call) :
    Settled m (∀ form ∈ items, m.IsForm form) (fun _ => True)
      ((Outline.whole items).run (emitAt home expand fuel maxMacroDepth) onMacro ⟨m, d⟩) := by
  refine Outline.run_settled rfl (Outline.serves_whole (fun _ _ _ => False) items d)
    (fun _ _ _ never => never.elim) (fun _ _ _ _ => trivial) fun form member w same => ?_
  exact emitForm_settled (acyclic form member).bounded enough same (noMacro form member)

theorem Settled.terminates {m : Machine} {sound : Prop} {evaluated : Ref → Prop}
    {result : EStateM.Result (Stop CompileError) Workbench Unit}
    (settled : Settled m sound evaluated result) : Terminates result := by
  rintro w rfl
  cases settled

theorem toplevel_terminates {m : Machine} {fuel : Nat} {form : Ref}
    (enough : m.heap.cells.size < fuel) (acyclic : m.heap.Acyclic form)
    (noMacro : ∀ call : MacroCall, m.heap.Evaluates form call.form → ¬ m.CallsMacro home call) :
    Terminates (toplevel expand fuel home form m) := by
  rw [toplevel_eq fun _ => emit .ret, terminates_finished_iff]
  exact (whole_settled enough (by simpa using acyclic) (by simpa using noMacro)).terminates

theorem function_terminates {m : Machine} {fuel : Nat} {params : Ref} {body : List Ref}
    (enough : m.heap.cells.size < fuel) (listed : m.heap.Acyclic params)
    (acyclic : ∀ form ∈ body, m.heap.Acyclic form)
    (noMacro : ∀ form ∈ body, ∀ call : MacroCall, m.heap.Evaluates form call.form →
      ¬ m.CallsMacro home call) (name : Ref) :
    Terminates (function expand fuel home name params body m) := by
  rcases function_cases home name params body m with ⟨_, draft, _, _, eq⟩ | ⟨_, refusal, _, eq⟩
  · rw [eq expand fun _ => emit .ret, terminates_finished_iff]
    exact (whole_settled enough acyclic noMacro).terminates
  · obtain ⟨own, rfl⟩ := refusal.failed_of_acyclic listed
    rw [eq]
    exact terminates_failed _ _

end Compile

end LispMachine
