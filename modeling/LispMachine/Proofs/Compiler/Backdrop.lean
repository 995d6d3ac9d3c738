import LispMachine.Compiler
import LispMachine.Proofs.Machine.Backdrop

/-!
# Compilations before a backdrop

A compilation looks at the heap, at the modules and at its own draft. It reaches the frames
and the output only through the macros that it runs. So what stands behind the macros stands
behind the whole compilation.
-/

namespace LispMachine

open Machine

/-- The workbench with its machine before a backdrop. -/
def Workbench.against (b : Backdrop) (w : Workbench) : Workbench := { w with machine := w.machine.against b }

namespace Compile

/-- The step does not look at the backdrop. -/
abbrev Detached (b : Backdrop) {α : Type} (action : Compile α) : Prop :=
  Oblivious (Workbench.against b) (fun w => w.machine.Ready) action

section

variable {α β : Type} {b : Backdrop}

theorem detached_fail (error : CompileError) : Detached b (fail error : Compile α) :=
  oblivious_throw _

theorem detached_modifyDraft (f : Draft → Draft) : Detached b (modifyDraft f) :=
  fun _ start => ⟨rfl, start⟩

theorem detached_onDraft (f : Draft → α × Draft) : Detached b (onDraft f) :=
  fun _ start => ⟨rfl, start⟩

theorem detached_emit (op : Opcode) : Detached b (emit op) := detached_modifyDraft _

theorem detached_emitWith (op : Opcode) (operand : Nat) : Detached b (emitWith op operand) := by
  unfold emitWith
  split
  · exact detached_fail _
  · exact detached_modifyDraft _

theorem detached_position : Detached b position := fun _ start => ⟨rfl, start⟩

theorem detached_emitBranch (op : Opcode) : Detached b (emitBranch op) :=
  detached_position.bind fun here => (detached_emitWith op 9999).bind fun _ => oblivious_pure here

theorem detached_land (branch : Nat) : Detached b (land branch) := by
  refine detached_position.bind fun here => ?_
  split
  · exact detached_fail _
  · exact detached_modifyDraft _

theorem detached_emitConstant (cell : Ref) : Detached b (emitConstant cell) :=
  (detached_onDraft _).bind fun index => detached_emitWith .pushConstant index

theorem detached_failOn (error : String → CompileError) (form : Ref) :
    Detached b (failOn error form : Compile α) := fun _ start => ⟨rfl, start⟩

theorem detached_listOf (list form : Ref) (context : String) : Detached b (listOf list form context) := by
  intro w start
  have same : (w.against b).machine.heap = w.machine.heap := rfl
  simp only [listOf, same]
  split
  · exact ⟨rfl, start⟩
  · split
    · exact ⟨rfl, start⟩
    · exact detached_failOn _ form w start

theorem detached_expectSymbol (cell : Ref) (context : String) : Detached b (expectSymbol cell context) := by
  intro w start
  have same : (w.against b).machine.heap = w.machine.heap := rfl
  simp only [expectSymbol, same]
  split
  · exact ⟨rfl, start⟩
  · exact detached_failOn _ cell w start

theorem detached_parseBinding (form binding : Ref) : Detached b (parseBinding form binding) := by
  refine Oblivious.get (fun _ => rfl) fun w => ?_
  split
  · exact oblivious_pure _
  · refine (detached_listOf _ _ _).bind fun items => ?_
    split
    · exact (detached_expectSymbol _ _).bind fun _ => oblivious_pure _
    · exact (detached_expectSymbol _ _).bind fun _ => oblivious_pure _
    · exact detached_failOn _ binding

theorem detached_parseBindings (form : Ref) (items : List Ref) (parsed : List (Ref × Option Ref)) :
    Detached b (parseBindings form items parsed) := by
  induction items generalizing parsed with
  | nil => exact oblivious_pure _
  | cons binding rest ih => exact (detached_parseBinding form binding).bind fun found => ih (found :: parsed)

theorem detached_emitStores (slots : List Nat) : Detached b (emitStores slots) := by
  induction slots with
  | nil => exact oblivious_pure _
  | cons slot rest ih => exact (detached_emitWith _ _).bind fun _ => ih

theorem detached_emitVariable (symbol : Ref) : Detached b (emitVariable symbol) := by
  refine Oblivious.get (fun _ => rfl) fun w => ?_
  split
  · exact detached_emitWith _ _
  · exact (detached_emitConstant symbol).bind fun _ => detached_emit _

theorem detached_emitQuote (form rest : Ref) : Detached b (emitQuote form rest) := by
  refine (detached_listOf _ _ _).bind fun items => ?_
  split
  · exact detached_emitConstant _
  · exact detached_failOn _ form

/-! ## Forms inside forms -/

section

variable {emitForm : Ref → Compile Unit} (detached : ∀ form, Detached b (emitForm form))

include detached

theorem detached_emitEach (items : List Ref) : Detached b (emitEach emitForm items) := by
  induction items with
  | nil => exact oblivious_pure _
  | cons form rest ih => exact (detached form).bind fun _ => ih

theorem detached_emitMore (items : List Ref) : Detached b (emitMore emitForm items) := by
  induction items with
  | nil => exact oblivious_pure _
  | cons form rest ih => exact (detached_emit _).bind fun _ => (detached form).bind fun _ => ih

theorem detached_emitBody (items : List Ref) : Detached b (emitBody emitForm items) := by
  cases items with
  | nil => exact detached_emit _
  | cons form rest => exact (detached form).bind fun _ => detached_emitMore detached rest

theorem detached_emitValues (bindings : List (Ref × Option Ref)) :
    Detached b (emitValues emitForm bindings) := by
  induction bindings with
  | nil => exact oblivious_pure _
  | cons binding rest ih =>
      rcases binding with ⟨name, _ | value⟩
      · exact ih
      · exact (detached value).bind fun _ => ih

theorem detached_emitChoice (condition consequence : Ref) (alternative : Option Ref) :
    Detached b (emitChoice emitForm condition consequence alternative) := by
  refine (detached condition).bind fun _ => (detached_emitBranch _).bind fun toAlternative => ?_
  refine (detached consequence).bind fun _ => (detached_emitBranch _).bind fun toEnd => ?_
  refine (detached_land _).bind fun _ => ?_
  cases alternative with
  | some alternative => exact (detached alternative).bind fun _ => detached_land _
  | none => exact (detached_emit _).bind fun _ => detached_land _

theorem detached_emitIf (form rest : Ref) : Detached b (emitIf emitForm form rest) := by
  refine (detached_listOf _ _ _).bind fun items => ?_
  split
  · exact detached_emitChoice detached _ _ _
  · exact detached_emitChoice detached _ _ _
  · exact detached_failOn _ form

theorem detached_emitLet (form rest : Ref) : Detached b (emitLet emitForm form rest) := by
  refine (detached_listOf _ _ _).bind fun items => ?_
  split
  · exact detached_failOn _ form
  · refine (detached_listOf _ _ _).bind fun list => (detached_parseBindings form list []).bind fun bindings => ?_
    refine (detached_emitValues detached bindings).bind fun _ => (detached_onDraft _).bind fun marked => ?_
    refine (detached_emitStores _).bind fun _ => (detached_emitBody detached _).bind fun _ => ?_
    exact detached_modifyDraft _

theorem detached_emitCall (form head rest : Ref) : Detached b (emitCall emitForm form head rest) := by
  have arguments : ∀ args : List Ref, Detached b (do
      emitEach emitForm args
      emitWith .call args.length) :=
    fun args => (detached_emitEach detached args).bind fun _ => detached_emitWith _ _
  refine (detached_listOf _ _ _).bind fun args => Oblivious.get (fun _ => rfl) fun w => ?_
  split
  · exact (detached_emitConstant head).bind fun _ => (detached_emit _).bind fun _ => arguments args
  · exact (detached head).bind fun _ => arguments args

end

/-! ## Macro calls -/

theorem detached_emitForm {onMacro : MacroCall → Compile Unit}
    (detached : ∀ call, Detached b (onMacro call)) (home : ModuleId) (fuel : Nat) (form : Ref) :
    Detached b (emitForm home onMacro fuel form) := by
  induction fuel generalizing form with
  | zero => exact oblivious_throw _
  | succ fuel ih =>
      unfold emitForm
      split
      · exact detached_emit _
      · refine Oblivious.get (fun _ => rfl) fun w => ?_
        split
        · refine Oblivious.get (fun _ => rfl) fun w => ?_
          split
          · exact detached_emitQuote _ _
          · exact detached_emitIf ih _ _
          · exact detached_emitLet ih _ _
          · refine Oblivious.get (fun _ => rfl) fun w => ?_
            split
            · exact detached _
            · exact detached_emitCall ih _ _ _
        · refine Oblivious.get (fun _ => rfl) fun w => ?_
          split
          · exact detached_emitVariable _
          · exact detached_emitConstant _

section

variable {expand : Expand} (blind : ∀ code args, Oblivious (against b) Ready (expand code args))

include blind

theorem detached_expandOnce (call : MacroCall) : Detached b (expandOnce expand call) := by
  refine (detached_listOf _ _ _).bind fun args => Oblivious.bind ?_ fun expansion => ?_
  · intro w start
    obtain ⟨same, kept⟩ := blind call.code args w.machine start
    have bench : (w.against b).machine = w.machine.against b := rfl
    simp only [onMachine, bench, same]
    cases done : expand call.code args w.machine with
    | ok value m =>
        rw [done] at kept
        exact ⟨rfl, kept⟩
    | error e m =>
        rw [done] at kept
        cases e <;> exact ⟨rfl, kept⟩
  · let text (m : Machine) := s!"expanded {m.display call.form} into {m.display expansion}"
    refine Oblivious.bind (fun w start => ⟨?_, ?_⟩) fun _ => oblivious_pure expansion
    · have same := against_note b w.machine .trace (rfl : text (w.machine.against b) = text w.machine)
      exact congrArg (fun m => EStateM.Result.ok () (Workbench.mk m w.draft)) same.symm
    · obtain ⟨journal, noted⟩ := note_eq w.machine .trace text
      simp only [modifyMachine, after_ok]
      rw [noted]
      exact start.of_bare rfl

theorem detached_emitAt (home : ModuleId) (fuel levels : Nat) (form : Ref) :
    Detached b (emitAt home expand fuel levels form) := by
  induction levels generalizing form with
  | zero => exact detached_emitForm (fun _ => detached_fail _) home fuel form
  | succ levels ih =>
      refine detached_emitForm (fun call => ?_) home fuel form
      exact (detached_expandOnce blind call).bind fun expansion => ih expansion

end

/-! ## Functions -/

theorem detached_bindParameters (params : Ref) (names : List Ref) :
    Detached b (bindParameters params names) := by
  induction names with
  | nil => exact oblivious_pure _
  | cons name rest ih =>
      refine Oblivious.get (fun _ => rfl) fun w => ?_
      split
      · split
        · exact detached_failOn _ params
        · exact (detached_expectSymbol _ _).bind fun _ => detached_modifyDraft _
        · exact detached_failOn _ params
      · exact (detached_expectSymbol _ _).bind fun _ => (detached_modifyDraft _).bind fun _ => ih

theorem oblivious_toCode {work : Compile Unit} (detached : Detached b work) (name : Ref)
    (home : ModuleId) : Oblivious (against b) Ready (toCode name home work) := by
  intro m start
  obtain ⟨same, kept⟩ := detached ⟨m, .empty⟩ start
  rw [show Workbench.against b ⟨m, .empty⟩ = ⟨m.against b, .empty⟩ from rfl] at same
  simp only [toCode, same]
  cases done : work ⟨m, .empty⟩ with
  | ok value w =>
      rw [done] at kept
      exact ⟨rfl, kept⟩
  | error e w =>
      rw [done] at kept
      exact ⟨rfl, kept⟩

end

section

variable {b : Backdrop} {expand : Expand}
  (blind : ∀ code args, Oblivious (against b) Ready (expand code args)) (fuel : Nat) (home : ModuleId)

include blind

theorem oblivious_function (name params : Ref) (body : List Ref) :
    Oblivious (against b) Ready (function expand fuel home name params body) := by
  refine oblivious_toCode ?_ name home
  refine (detached_listOf _ _ _).bind fun items => (detached_bindParameters params items).bind fun _ => ?_
  exact (detached_emitBody (detached_emitAt blind home fuel maxMacroDepth) body).bind fun _ =>
    detached_emit _

theorem oblivious_toplevel (form : Ref) :
    Oblivious (against b) Ready (toplevel expand fuel home form) := by
  refine oblivious_toCode ?_ .null home
  exact (detached_emitAt blind home fuel maxMacroDepth form).bind fun _ => detached_emit _

end

end Compile

end LispMachine
