import LispMachine.Proofs.Compiler.Building

/-!
# Enough fuel to compile

A compilation spends fuel in two ways: on the walk into a form and on the macros that it
runs. Once it has come to its end, more of either changes nothing.
-/

namespace LispMachine

open Machine

/-- Runs the code of a macro on argument forms. -/
abbrev Machine.runMacro (fuel : Nat) : Expand := expandWith (serve fuel) fuel

namespace Compile

/-- Where the first step comes to its end, the second does the same, and leaves a machine that
    code may run on. -/
def Lasts {α : Type} (action action' : Compile α) : Prop :=
  ∀ w : Workbench, w.machine.Ready → Terminates (action w) →
    action' w = action w ∧ (after (action w)).machine.Ready

theorem Lasts.bind {α β : Type} {action action' : Compile α} {next next' : α → Compile β}
    (first : Lasts action action') (second : ∀ a, Lasts (next a) (next' a)) :
    Lasts (action >>= next) (action' >>= next') := by
  intro w ready ends
  rw [bind_apply] at ends
  rw [bind_apply, bind_apply]
  cases done : action w with
  | error e w₁ =>
      rw [done] at ends
      obtain ⟨cause, rfl⟩ := Terminates.error ends
      obtain ⟨same, ready₁⟩ := first w ready (by rw [done]; exact terminates_failed _ _)
      rw [done] at same ready₁
      rw [same]
      exact ⟨rfl, ready₁⟩
  | ok a w₁ =>
      rw [done] at ends
      obtain ⟨same, ready₁⟩ := first w ready (by rw [done]; exact terminates_ok _ _)
      rw [done] at same ready₁
      rw [same]
      exact second a w₁ ready₁ ends

theorem Outline.run_lasts {emitForm emitForm' : Ref → Compile Unit}
    {onMacro onMacro' : MacroCall → Compile Unit}
    (forms : ∀ form, Lasts (emitForm form) (emitForm' form))
    (calls : ∀ call, Lasts (onMacro call) (onMacro' call)) (outline : Outline) :
    Lasts (outline.run emitForm onMacro) (outline.run emitForm' onMacro') := by
  induction outline with
  | done => exact fun w ready _ => ⟨rfl, ready⟩
  | fails error => exact fun w ready _ => ⟨rfl, ready⟩
  | write change rest ih => exact fun w ready ends => ih ⟨w.machine, change w.draft⟩ ready ends
  | look next ih => exact fun w ready ends => ih w.draft w ready ends
  | part form rest ih => exact (forms form).bind fun _ => ih
  | expand call => exact calls call

/-- A walk that has come to its end. -/
theorem emitForm_lasts {home : ModuleId} {onMacro onMacro' : MacroCall → Compile Unit}
    (calls : ∀ call, Lasts (onMacro call) (onMacro' call)) {walk more : Nat} (le : walk ≤ more)
    (form : Ref) : Lasts (emitForm home onMacro walk form) (emitForm home onMacro' more form) := by
  induction walk generalizing form more with
  | zero => exact fun w _ ends => absurd rfl (ends w)
  | succ walk ih =>
      obtain ⟨more, rfl⟩ : ∃ n, more = n + 1 := ⟨more - 1, by omega⟩
      intro w ready ends
      rw [emitForm_succ] at ends
      rw [emitForm_succ, emitForm_succ]
      exact Outline.run_lasts (ih (by omega)) calls _ w ready ends

/-- An expansion comes to its end if the arguments and the macro do. -/
theorem terminates_expandOnce_iff {expand : Expand} {call : MacroCall} {w : Workbench} :
    Terminates (expandOnce expand call w) ↔
      w.machine.heap.isEndless call.rest = false ∧
        ∀ args, w.machine.heap.items? call.rest = some args →
          Terminates (expand call.code args w.machine) := by
  rw [expandOnce_apply]
  unfold itemsOf
  cases listed : w.machine.heap.items? call.rest with
  | none =>
      cases endless : w.machine.heap.isEndless call.rest with
      | true => exact ⟨fun ends => absurd rfl (ends w), nofun⟩
      | false => exact ⟨fun _ => ⟨rfl, nofun⟩, fun _ => terminates_failed _ _⟩
  | some args =>
      simp only [Heap.isEndless_of_items? listed, true_and, Option.some.injEq, forall_eq']
      cases ran : expand call.code args w.machine with
      | ok value m => exact ⟨fun _ => terminates_ok _ _, fun _ => terminates_ok _ _⟩
      | error e m =>
          cases e with
          | failed cause => exact ⟨fun _ => terminates_failed _ _, fun _ => terminates_failed _ _⟩
          | outOfFuel => exact ⟨fun ends => absurd rfl (ends _), fun ends => absurd rfl (ends _)⟩

/-- An expansion that has come to its end. -/
theorem expandOnce_lasts {fuel more : Nat} (le : fuel ≤ more) (call : MacroCall) :
    Lasts (expandOnce (runMacro fuel) call) (expandOnce (runMacro more) call) := by
  intro w ready ends
  obtain ⟨_, inner⟩ := terminates_expandOnce_iff.1 ends
  rw [expandOnce_apply, expandOnce_apply]
  rcases itemsOf_cases call.rest call.form "macro call" w.machine with
    ⟨args, taken, listed⟩ | ⟨error, taken, _⟩
  · obtain ⟨journal, left⟩ :=
      expanded_machine call w.draft (runMacro fuel call.code args w.machine)
    have grown := (expandWith_grows (serve fuel) fuel call.code args ready).ready ready
    rw [taken]
    dsimp only
    rw [left]
    exact ⟨congrArg _ (expandWith_lasts ready (inner args listed) le), grown.of_bare rfl⟩
  · rw [taken]
    exact ⟨rfl, ready⟩

theorem expandOnce_more {fuel more : Nat} {call : MacroCall} {w : Workbench}
    {result : EStateM.Result (Stop CompileError) Workbench Ref} (ready : w.machine.Ready)
    (done : expandOnce (runMacro fuel) call w = result) (ends : Terminates result)
    (le : fuel ≤ more) : expandOnce (runMacro more) call w = result := by
  subst done
  exact (expandOnce_lasts le call w ready ends).1

/-- Compiles a macro call where expansions may nest `levels` deep. -/
def emitExpansion (home : ModuleId) (fuel : Nat) : Nat → MacroCall → Compile Unit
  | 0, _ => fail (.macroRecursion maxMacroDepth)
  | levels + 1, call => do
      let expansion ← expandOnce (runMacro fuel) call
      emitAt home (runMacro fuel) fuel levels expansion

theorem emitAt_eq (home : ModuleId) (fuel levels : Nat) (form : Ref) :
    emitAt home (runMacro fuel) fuel levels form =
      emitForm home (emitExpansion home fuel levels) fuel form := by
  cases levels <;> rfl

theorem emitExpansion_lasts (home : ModuleId) {fuel more : Nat} (le : fuel ≤ more) (levels : Nat)
    (call : MacroCall) :
    Lasts (emitExpansion home fuel levels call) (emitExpansion home more levels call) := by
  induction levels generalizing call with
  | zero => exact fun w ready _ => ⟨rfl, ready⟩
  | succ levels ih =>
      refine (expandOnce_lasts le call).bind fun expansion => ?_
      rw [emitAt_eq, emitAt_eq]
      exact emitForm_lasts ih le expansion

end Compile

end LispMachine
