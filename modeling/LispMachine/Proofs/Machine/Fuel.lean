import LispMachine.Proofs.Machine.Frames

/-!
# Enough fuel

Fuel bounds a run and has no other influence. A run that has come to its end comes to the
same end with more fuel, and since no callable re-enters the machine, whatever its host is.
-/

namespace LispMachine

/-- The computation has come to its end: it has a value, or it has failed. -/
def Terminates {ε σ α : Type} (result : EStateM.Result (Stop ε) σ α) : Prop :=
  ∀ s, result ≠ .error .outOfFuel s

section

variable {ε σ α : Type}

theorem terminates_ok (a : α) (s : σ) : Terminates (.ok a s : EStateM.Result (Stop ε) σ α) := nofun

theorem terminates_failed (e : ε) (s : σ) :
    Terminates (.error (.failed e) s : EStateM.Result (Stop ε) σ α) := nofun

theorem Terminates.error {e : Stop ε} {s : σ}
    (ends : Terminates (.error e s : EStateM.Result (Stop ε) σ α)) : ∃ cause, e = .failed cause := by
  cases e with
  | failed cause => exact ⟨cause, rfl⟩
  | outOfFuel => exact absurd rfl (ends s)

end

namespace Machine

variable {m : Machine} {host host' : Host}

theorem perform_host (effect : Effect) (plain : OnlyBuiltins m.heap) :
    effect.perform host m = effect.perform host' m := by
  cases effect with
  | call frame callee args =>
      have plain' : OnlyBuiltins (m.withTop frame).heap := plain
      simp only [Effect.perform]
      rw [invoke_apply host callee args _ plain', invoke_apply host' callee args _ plain']
  | stay frame => rfl
  | back frame => rfl
  | fail frame error => rfl

theorem step_host (plain : OnlyBuiltins m.heap) : step host m = step host' m := by
  unfold step
  split
  · next code pc _ =>
      split
      · rfl
      · next op operand _ =>
          obtain ⟨journal, noted⟩ := noteIf_eq m m.config.trace .trace fun m =>
            m.traceLine code pc op operand
          have plain' : OnlyBuiltins ((m.withJournal journal).jump (pc + 1 + op.width)).heap := by
            unfold jump
            split <;> exact plain
          rw [noted, execute_apply, execute_apply]
          exact perform_host _ plain'
  · rfl

/-- A run that has come to its end comes to the same end with more fuel. -/
theorem run_lasts {floor fuel more : Nat} (ready : m.Ready)
    (ends : Terminates (run host floor fuel m)) (le : fuel ≤ more) : run host' floor more m = run host floor fuel m := by
  induction fuel generalizing m more with
  | zero => exact absurd rfl (ends m)
  | succ fuel ih =>
      obtain ⟨more, rfl⟩ : ∃ n, more = n + 1 := ⟨more - 1, by omega⟩
      unfold run at ends ⊢
      split at ends
      · next deep =>
          rw [if_pos deep, if_pos deep, step_host ready.plain]
          have grown := step_grows host ready
          cases done : step host m with
          | error e m' => rfl
          | ok _ m' =>
              rw [done] at ends grown
              exact ih (grown.ready ready) ends (by omega)
      · next low => rw [if_neg low, if_neg low]

theorem callOut_lasts {enterCall : Action RuntimeError Unit} {fuel more : Nat}
    (grows : ∀ m : Machine, m.Ready → m.Grows (after (enterCall m))) (ready : m.Ready)
    (ends : Terminates (callOut host fuel enterCall m)) (le : fuel ≤ more) :
    callOut host' more enterCall m = callOut host fuel enterCall m := by
  have inner : Terminates (driven host fuel enterCall m) := by
    intro m' ran
    rw [callOut_apply, ran] at ends
    exact absurd rfl (ends _)
  suffices same : driven host' more enterCall m = driven host fuel enterCall m by
    rw [callOut_apply, callOut_apply, same]
  simp only [driven, bind_apply, enter_apply] at inner ⊢
  by_cases full : m.config.maxFrames ≤ m.depth
  · simp only [full, if_true]
  · simp only [full, if_false] at inner ⊢
    have ready' : (m.withFrame (.waiting m.top.home)).Ready := ready.of_bare rfl
    have grown := grows _ ready'
    cases entered : enterCall (m.withFrame (.waiting m.top.home)) with
    | error e m₁ => rfl
    | ok _ m₁ =>
        rw [entered] at inner grown
        exact run_lasts (grown.ready ready') inner le

/-- What a macro comes to does not depend on the fuel, if it comes to an end. -/
theorem expandWith_lasts {code : Code} {args : List Ref} {fuel more : Nat} (ready : m.Ready)
    (ends : Terminates (expandWith host fuel code args m)) (le : fuel ≤ more) :
    expandWith host' more code args m = expandWith host fuel code args m :=
  callOut_lasts (fun _ ready => callCode_grows code args ready) ready ends le

end Machine

end LispMachine
