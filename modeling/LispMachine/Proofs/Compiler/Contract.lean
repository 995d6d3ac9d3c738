import LispMachine.Compiler
import LispMachine.Proofs.Machine.Safety

/-!
# What a compilation upholds

A compilation touches the machine only where it runs macros and takes notes. So a
property of machines that macros and notes keep is kept by every compilation,
whether it succeeds or fails, and a failure that is not the compiler's own is that of a
macro.
-/

namespace LispMachine

open Machine

/-- A failure that the compiler itself finds: neither that of a macro nor of the heap. -/
def CompileError.isOwn : CompileError → Bool
  | .macroExpansion _ _ => false
  | .heap _ => false
  | _ => true

/-- If the computation fails, then with a failure that is allowed in the state it leaves. -/
def Allowed {ε σ α : Type} (allows : σ → ε → Prop) : EStateM.Result (Stop ε) σ α → Prop
  | .error (.failed error) s => allows s error
  | _ => True

theorem allowed_all {ε σ α : Type} (result : EStateM.Result (Stop ε) σ α) :
    Allowed (fun _ _ => True) result := by
  cases result with
  | ok a s => trivial
  | error e s => cases e <;> trivial

/-- A property of machines that a compilation upholds, and the failures that it allows: the
    property survives notes, it covers every macro that is found, such a macro keeps it
    when it runs and fails in an allowed way, and so does the compiler itself. -/
structure Contract (expand : Expand) where
  holds : Machine → Prop
  covers : Code → Prop
  allows : Machine → CompileError → Prop
  own : ∀ m error, error.isOwn = true → allows m error
  noted : ∀ m journal, holds m → holds (m.withJournal journal)
  found : ∀ m home head code, holds m → Compile.macroOf? m home head = some code → covers code
  runs : ∀ code args m name, covers code → holds m → holds (after (expand code args m)) ∧
    Allowed (fun m cause => allows m (.macroExpansion name cause)) (expand code args m)

namespace Compile

variable {expand : Expand}

/-- The step keeps the property, and fails in an allowed way. -/
def Upholds {α : Type} (c : Contract expand) (action : Compile α) : Prop :=
  ∀ w, c.holds w.machine →
    c.holds (after (action w)).machine ∧ Allowed (fun w => c.allows w.machine) (action w)

section

variable {α β : Type} {c : Contract expand}

theorem Upholds.bind {action : Compile α} {next : α → Compile β} (first : Upholds c action)
    (second : ∀ a, Upholds c (next a)) : Upholds c (action >>= next) := by
  intro w start
  have before := first w start
  rw [bind_apply]
  cases done : action w with
  | ok a w' =>
      rw [done] at before
      exact second a w' before.1
  | error e w' =>
      rw [done] at before
      cases e <;> exact before

/-- A step that looks at the workbench first. -/
theorem Upholds.get {next : Workbench → Compile β}
    (second : ∀ w, c.holds w.machine → Upholds c (next w)) : Upholds c (get >>= next) :=
  fun w start => second w start w start

theorem upholds_pure (a : α) : Upholds c (pure a) := fun _ start => ⟨start, trivial⟩

theorem upholds_fail {error : CompileError} (own : error.isOwn = true) :
    Upholds c (fail error : Compile α) := fun w start => ⟨start, c.own w.machine error own⟩

theorem upholds_modifyDraft (f : Draft → Draft) : Upholds c (modifyDraft f) :=
  fun _ start => ⟨start, trivial⟩

theorem upholds_onDraft (f : Draft → α × Draft) : Upholds c (onDraft f) :=
  fun _ start => ⟨start, trivial⟩

theorem upholds_emit (op : Opcode) : Upholds c (emit op) := upholds_modifyDraft _

theorem upholds_emitWith (op : Opcode) (operand : Nat) : Upholds c (emitWith op operand) := by
  unfold emitWith
  split
  · exact upholds_fail rfl
  · exact upholds_modifyDraft _

theorem upholds_position : Upholds c position := fun _ start => ⟨start, trivial⟩

theorem upholds_emitBranch (op : Opcode) : Upholds c (emitBranch op) :=
  upholds_position.bind fun here => (upholds_emitWith op 9999).bind fun _ => upholds_pure here

theorem upholds_land (branch : Nat) : Upholds c (land branch) := by
  refine upholds_position.bind fun here => ?_
  split
  · exact upholds_fail rfl
  · exact upholds_modifyDraft _

theorem upholds_emitConstant (cell : Ref) : Upholds c (emitConstant cell) :=
  (upholds_onDraft _).bind fun index => upholds_emitWith .pushConstant index

theorem upholds_failOn {error : String → CompileError} (form : Ref)
    (own : ∀ text, (error text).isOwn = true) : Upholds c (failOn error form : Compile α) :=
  fun w start => ⟨start, c.own w.machine _ (own _)⟩

theorem upholds_listOf (list form : Ref) (context : String) : Upholds c (listOf list form context) := by
  intro w start
  unfold listOf
  split
  · exact ⟨start, trivial⟩
  · split
    · exact ⟨start, trivial⟩
    · exact upholds_failOn form (fun _ => rfl) w start

theorem upholds_expectSymbol (cell : Ref) (context : String) : Upholds c (expectSymbol cell context) := by
  intro w start
  unfold expectSymbol
  split
  · exact ⟨start, trivial⟩
  · exact upholds_failOn cell (fun _ => rfl) w start

theorem upholds_parseBinding (form binding : Ref) : Upholds c (parseBinding form binding) := by
  refine Upholds.get fun w _ => ?_
  split
  · exact upholds_pure _
  · refine (upholds_listOf _ _ _).bind fun items => ?_
    split
    · exact (upholds_expectSymbol _ _).bind fun _ => upholds_pure _
    · exact (upholds_expectSymbol _ _).bind fun _ => upholds_pure _
    · exact upholds_failOn binding fun _ => rfl

theorem upholds_parseBindings (form : Ref) (items : List Ref) (parsed : List (Ref × Option Ref)) :
    Upholds c (parseBindings form items parsed) := by
  induction items generalizing parsed with
  | nil => exact upholds_pure _
  | cons binding rest ih => exact (upholds_parseBinding form binding).bind fun found => ih (found :: parsed)

theorem upholds_emitStores (slots : List Nat) : Upholds c (emitStores slots) := by
  induction slots with
  | nil => exact upholds_pure _
  | cons slot rest ih => exact (upholds_emitWith _ _).bind fun _ => ih

theorem upholds_emitVariable (symbol : Ref) : Upholds c (emitVariable symbol) := by
  refine Upholds.get fun w _ => ?_
  split
  · exact upholds_emitWith _ _
  · exact (upholds_emitConstant symbol).bind fun _ => upholds_emit _

theorem upholds_emitQuote (form rest : Ref) : Upholds c (emitQuote form rest) := by
  refine (upholds_listOf _ _ _).bind fun items => ?_
  split
  · exact upholds_emitConstant _
  · exact upholds_failOn form fun _ => rfl

/-! ## Forms inside forms -/

section

variable {emitForm : Ref → Compile Unit} (upholds : ∀ form, Upholds c (emitForm form))

include upholds

theorem upholds_emitEach (items : List Ref) : Upholds c (emitEach emitForm items) := by
  induction items with
  | nil => exact upholds_pure _
  | cons form rest ih => exact (upholds form).bind fun _ => ih

theorem upholds_emitMore (items : List Ref) : Upholds c (emitMore emitForm items) := by
  induction items with
  | nil => exact upholds_pure _
  | cons form rest ih => exact (upholds_emit _).bind fun _ => (upholds form).bind fun _ => ih

theorem upholds_emitBody (items : List Ref) : Upholds c (emitBody emitForm items) := by
  cases items with
  | nil => exact upholds_emit _
  | cons form rest => exact (upholds form).bind fun _ => upholds_emitMore upholds rest

theorem upholds_emitValues (bindings : List (Ref × Option Ref)) :
    Upholds c (emitValues emitForm bindings) := by
  induction bindings with
  | nil => exact upholds_pure _
  | cons binding rest ih =>
      rcases binding with ⟨name, _ | value⟩
      · exact ih
      · exact (upholds value).bind fun _ => ih

theorem upholds_emitChoice (condition consequence : Ref) (alternative : Option Ref) :
    Upholds c (emitChoice emitForm condition consequence alternative) := by
  refine (upholds condition).bind fun _ => (upholds_emitBranch _).bind fun toAlternative => ?_
  refine (upholds consequence).bind fun _ => (upholds_emitBranch _).bind fun toEnd => ?_
  refine (upholds_land _).bind fun _ => ?_
  cases alternative with
  | some alternative => exact (upholds alternative).bind fun _ => upholds_land _
  | none => exact (upholds_emit _).bind fun _ => upholds_land _

theorem upholds_emitIf (form rest : Ref) : Upholds c (emitIf emitForm form rest) := by
  refine (upholds_listOf _ _ _).bind fun items => ?_
  split
  · exact upholds_emitChoice upholds _ _ _
  · exact upholds_emitChoice upholds _ _ _
  · exact upholds_failOn form fun _ => rfl

theorem upholds_emitLet (form rest : Ref) : Upholds c (emitLet emitForm form rest) := by
  refine (upholds_listOf _ _ _).bind fun items => ?_
  split
  · exact upholds_failOn form fun _ => rfl
  · refine (upholds_listOf _ _ _).bind fun list => (upholds_parseBindings form list []).bind fun bindings => ?_
    refine (upholds_emitValues upholds bindings).bind fun _ => (upholds_onDraft _).bind fun marked => ?_
    refine (upholds_emitStores _).bind fun _ => (upholds_emitBody upholds _).bind fun _ => ?_
    exact upholds_modifyDraft _

theorem upholds_emitCall (form head rest : Ref) : Upholds c (emitCall emitForm form head rest) := by
  have arguments : ∀ args : List Ref, Upholds c (do
      emitEach emitForm args
      emitWith .call args.length) :=
    fun args => (upholds_emitEach upholds args).bind fun _ => upholds_emitWith _ _
  refine (upholds_listOf _ _ _).bind fun args => Upholds.get fun w _ => ?_
  split
  · exact (upholds_emitConstant head).bind fun _ => (upholds_emit _).bind fun _ => arguments args
  · exact (upholds head).bind fun _ => arguments args

end

/-! ## Macro calls -/

theorem upholds_emitForm {onMacro : MacroCall → Compile Unit}
    (upholds : ∀ call, c.covers call.code → Upholds c (onMacro call)) (home : ModuleId) (fuel : Nat)
    (form : Ref) : Upholds c (emitForm home onMacro fuel form) := by
  induction fuel generalizing form with
  | zero => exact fun _ start => ⟨start, trivial⟩
  | succ fuel ih =>
      unfold emitForm
      split
      · exact upholds_emit _
      · refine Upholds.get fun w _ => ?_
        split
        · refine Upholds.get fun w _ => ?_
          split
          · exact upholds_emitQuote _ _
          · exact upholds_emitIf ih _ _
          · exact upholds_emitLet ih _ _
          · refine Upholds.get fun w start => ?_
            split
            · next code found => exact upholds _ (c.found _ _ _ _ start found)
            · exact upholds_emitCall ih _ _ _
        · refine Upholds.get fun w _ => ?_
          split
          · exact upholds_emitVariable _
          · exact upholds_emitConstant _

theorem upholds_expandOnce {call : MacroCall} (covered : c.covers call.code) :
    Upholds c (expandOnce expand call) := by
  refine (upholds_listOf _ _ _).bind fun args => Upholds.bind ?_ fun expansion => ?_
  · intro w start
    simp only [onMachine]
    cases done : expand call.code args w.machine with
    | ok value m =>
        have ran := c.runs call.code args w.machine "" covered start
        rw [done] at ran
        exact ⟨ran.1, trivial⟩
    | error e m =>
        have ran := c.runs call.code args w.machine (m.display call.head) covered start
        rw [done] at ran
        cases e with
        | failed error => exact ran
        | outOfFuel => exact ⟨ran.1, trivial⟩
  · refine Upholds.bind (fun w start => ⟨?_, trivial⟩) fun _ => upholds_pure expansion
    obtain ⟨journal, noted⟩ := note_eq w.machine .trace fun m =>
      s!"expanded {m.display call.form} into {m.display expansion}"
    simp only [modifyMachine, after_ok, noted]
    exact c.noted _ journal start

theorem upholds_emitAt (home : ModuleId) (fuel levels : Nat) (form : Ref) :
    Upholds c (emitAt home expand fuel levels form) := by
  induction levels generalizing form with
  | zero => exact upholds_emitForm (fun _ _ => upholds_fail rfl) home fuel form
  | succ levels ih =>
      refine upholds_emitForm (fun call covered => ?_) home fuel form
      exact (upholds_expandOnce covered).bind fun expansion => ih expansion

/-! ## Functions -/

theorem upholds_bindParameters (params : Ref) (names : List Ref) :
    Upholds c (bindParameters params names) := by
  induction names with
  | nil => exact upholds_pure _
  | cons name rest ih =>
      refine Upholds.get fun w _ => ?_
      split
      · split
        · exact upholds_failOn params fun _ => rfl
        · exact (upholds_expectSymbol _ _).bind fun _ => upholds_modifyDraft _
        · exact upholds_failOn params fun _ => rfl
      · exact (upholds_expectSymbol _ _).bind fun _ => (upholds_modifyDraft _).bind fun _ => ih

theorem toCode_upholds {work : Compile Unit} (upholds : Upholds c work) (name : Ref)
    (home : ModuleId) {m : Machine} (start : c.holds m) :
    c.holds (after (toCode name home work m)) ∧ Allowed c.allows (toCode name home work m) := by
  have both := upholds ⟨m, .empty⟩ start
  unfold toCode
  cases done : work ⟨m, .empty⟩ with
  | ok value w =>
      rw [done] at both
      exact ⟨both.1, trivial⟩
  | error e w =>
      rw [done] at both
      cases e <;> exact both

end

theorem function_upholds (c : Contract expand) {m : Machine} (start : c.holds m) (fuel : Nat)
    (home : ModuleId) (name params : Ref) (body : List Ref) :
    c.holds (after (function expand fuel home name params body m)) ∧
      Allowed c.allows (function expand fuel home name params body m) := by
  refine toCode_upholds ?_ name home start
  refine (upholds_listOf _ _ _).bind fun items => (upholds_bindParameters params items).bind fun _ => ?_
  exact (upholds_emitBody (upholds_emitAt home fuel maxMacroDepth) body).bind fun _ =>
    upholds_emit _

theorem toplevel_upholds (c : Contract expand) {m : Machine} (start : c.holds m) (fuel : Nat)
    (home : ModuleId) (form : Ref) :
    c.holds (after (toplevel expand fuel home form m)) ∧
      Allowed c.allows (toplevel expand fuel home form m) := by
  refine toCode_upholds ?_ .null home start
  exact (upholds_emitAt home fuel maxMacroDepth form).bind fun _ => upholds_emit _

end Compile

end LispMachine
