import LispMachine.Proofs.Toplevel.Handles

/-!
# Collections between instructions

The roots suffice at every instruction: a run with collections between its instructions
goes together with the run without them, step by step. What a collection frees, no later
step can read, although neither the cell of the running code nor a callee that was taken
off the work stack is a root.
-/

namespace LispMachine

namespace Machine

/-- Takes steps until at most `floor` frames are left, and collects garbage before each
    step whose number is due. -/
def runCollecting (host : Host) (due : Nat → Bool) (floor : Nat) :
    Nat → Nat → Action RuntimeError Unit
  | 0, _, m => .error .outOfFuel m
  | fuel + 1, number, m =>
      let m := if due number then m.collectGarbage.2 else m
      if floor < m.depth then
        match step host m with
        | .ok _ m => runCollecting host due floor fuel (number + 1) m
        | .error e m => .error e m
      else .ok () m

/-! ## Steps -/

section

variable {m n m' : Machine}

theorem perform_ends (effect : CallEffect) : effect.perform m ≠ .error .outOfFuel m' := by
  cases effect with
  | returned heap output value => exact nofun
  | entered heap frame => exact nofun
  | failed error heap frame => cases frame <;> exact nofun

theorem giveBack_ends : giveBack m ≠ .error .outOfFuel m' := by
  unfold giveBack
  split
  · exact nofun
  · split <;> exact nofun

/-- A single step does not use up fuel, since no callable re-enters the machine. -/
theorem step_ends (host : Host) (plain : OnlyBuiltins m.heap) :
    step host m ≠ .error .outOfFuel m' := by
  obtain ⟨journal, eq⟩ := step_apply host m
  rw [eq]
  cases m.top.effect m with
  | stay frame => exact nofun
  | fail frame error => exact nofun
  | back frame => exact giveBack_ends
  | call frame callee args =>
      simp only [Effect.perform]
      rw [invoke_apply host callee args ((m.withJournal journal).withTop frame) plain]
      exact perform_ends _

/-- A collection on one side gives up the ties of what it frees and keeps those of the
    roots. -/
theorem Twins.collect₂ {ties : Ties} (twins : m.Twins true ties n) :
    ∃ ties', m.Twins true ties' n.collectGarbage.2 := by
  obtain ⟨journal, collected⟩ := collectGarbage_eq n
  obtain ⟨ties', heaps, kept⟩ := twins.heap.sweep (.refl twins.heap.tidy₁ m.roots)
    (Heap.sweeps_collect twins.heap.tidy₂ n.roots)
  rw [collected]
  exact ⟨ties', (twins.imp heaps kept).withJournal m.journal journal⟩

end

/-! ## Runs -/

/-- Two ends of a run that are the same up to ties: both are reached, or both are the same
    failure, or the fuel of both is used up. -/
inductive SameEnd : EStateM.Result (Stop RuntimeError) Machine Unit →
    EStateM.Result (Stop RuntimeError) Machine Unit → Prop where
  | ok {ties : Ties} {m n : Machine} : m.Twins true ties n → SameEnd (.ok () m) (.ok () n)
  | error {ties : Ties} {m n : Machine} (e : Stop RuntimeError) : m.Twins true ties n →
      SameEnd (.error e m) (.error e n)

/-- The run does not fail for want of a cell. -/
def HasRoom (result : EStateM.Result (Stop RuntimeError) Machine Unit) : Prop :=
  ∀ e m, result ≠ .error (.failed (.heap e)) m

variable {m n : Machine}

theorem Twins.runCollecting {ties : Ties} (twins : m.Twins true ties n) (host : Host)
    (due : Nat → Bool) (floor fuel number : Nat) (room : HasRoom (run host floor fuel m))
    (room' : HasRoom (Machine.runCollecting host due floor fuel number n)) :
    SameEnd (run host floor fuel m) (Machine.runCollecting host due floor fuel number n) := by
  induction fuel generalizing ties number m n with
  | zero => exact .error _ twins
  | succ fuel ih =>
      obtain ⟨ties₁, twins₁⟩ : ∃ ties₁, m.Twins true ties₁
          (if due number then n.collectGarbage.2 else n) := by
        split
        · exact twins.collect₂
        · exact ⟨ties, twins⟩
      unfold Machine.runCollecting at room' ⊢
      unfold Machine.run at room ⊢
      dsimp only at room' ⊢
      generalize (if due number then n.collectGarbage.2 else n) = n₁ at twins₁ room' ⊢
      rw [← twins₁.depth] at room' ⊢
      split
      · next running =>
          rw [if_pos running] at room room'
          have stepped := mirrored_step host host ties₁ (List.Subset.refl _) m n₁ twins₁
          have ends := fun s => @step_ends m s host twins₁.heap.tidy₁.plain
          have ends' := fun s => @step_ends n₁ s host twins₁.heap.tidy₂.plain
          generalize step host m = first, step host n₁ = second at stepped room room' ends ends'
          cases stepped with
          | ok done =>
              obtain ⟨ties₂, _, twins₂, _⟩ := done
              exact ih twins₂ (number + 1) room room'
          | error failed =>
              obtain ⟨ties₂, _, twins₂⟩ := failed
              exact .error _ twins₂
          | @limit₁ e s _ _ reached =>
              cases e with
              | outOfFuel => exact absurd rfl (ends s)
              | failed e =>
                  cases e with
                  | heap e => exact absurd rfl (room e s)
                  | _ => cases reached
          | @limit₂ e _ t _ reached =>
              cases e with
              | outOfFuel => exact absurd rfl (ends' t)
              | failed e =>
                  cases e with
                  | heap e => exact absurd rfl (room' e t)
                  | _ => cases reached
      · exact .ok twins₁

theorem SameEnd.same {r r' : EStateM.Result (Stop RuntimeError) Machine Unit} (same : SameEnd r r') :
    (after r).output = (after r').output ∧ (after r).depth = (after r').depth := by
  cases same with
  | ok twins => exact ⟨twins.output, twins.depth⟩
  | error e twins => exact ⟨twins.output, twins.depth⟩

/-- Whatever the frames of an intact machine are doing, and before whichever instructions
    garbage is collected: as long as cells do not run out, the run ends when the plain run
    does and in the same way, up to the places of cells. -/
theorem collections_cannot_be_observed (intact : m.Intact) (host : Host) (due : Nat → Bool)
    (floor fuel : Nat) (room : HasRoom (run host floor fuel m))
    (room' : HasRoom (runCollecting host due floor fuel 0 m)) :
    SameEnd (run host floor fuel m) (runCollecting host due floor fuel 0 m) ∧
      (after (run host floor fuel m)).output =
        (after (runCollecting host due floor fuel 0 m)).output ∧
      (after (run host floor fuel m)).depth =
        (after (runCollecting host due floor fuel 0 m)).depth := by
  have same := intact.twins.runCollecting host due floor fuel 0 room room'
  exact ⟨same, same.same⟩

/-- The text of the value that a run leaves on the work stack. -/
def endText : EStateM.Result (Stop RuntimeError) Machine Unit → Option String
  | .ok _ m => m.top.stack.head?.map m.display
  | .error _ _ => none

theorem hasRoom_of_endText {result : EStateM.Result (Stop RuntimeError) Machine Unit} {text : String}
    (ended : endText result = some text) : HasRoom result := by
  rintro e m rfl
  cases ended

/-- The machine with a frame that is about to run the code, with the true value in its only
    variable. -/
def aboutToRun (m : Machine) (code : Code) : Machine :=
  m.withFrame (.ofCode code m.user #[m.truth])

theorem Intact.aboutToRun (intact : m.Intact) {r : Ref} {code : Code} (found : m.heap.code? r = some code) :
    (m.aboutToRun code).Intact := by
  refine intact.withFrame fun child member => ?_
  simp only [Frame.roots, Frame.ofCode, Frame.codeRoots, List.nil_append, List.mem_append,
    List.mem_singleton] at member
  rcases member with rfl | inside
  · exact intact.truth.elim Or.inl fun root => intact.held _ (mem_symbol_roots root)
  · unfold Heap.code? at found
    split at found
    · next s held =>
        have cell := Heap.scalar?_eq_some.1 held
        cases s <;> cases found <;> exact intact.tidy.closed r _ cell child inside
    · cases found

/-- What a function of a text leaves, run without collections and with a collection before
    every step. -/
def endTexts (source name : String) : Option (Option String × Option String) :=
  match boot { arenaSize := 64 } none with
  | .error _ => none
  | .ok m =>
      match evalText 100 source m with
      | none => none
      | some (_, m) =>
          match m.function? m.user name with
          | none => none
          | some r =>
              match m.heap.code? r with
              | none => none
              | some code =>
                  some (endText (run (serve 0) 1 20 (m.aboutToRun code)),
                    endText (runCollecting (serve 0) (fun _ => true) 1 20 0 (m.aboutToRun code)))

theorem collections_cannot_be_observed_sample :
    ∃ m : Machine, m.Intact ∧ m.depth = 2 ∧
      SameEnd (run (serve 0) 1 20 m) (runCollecting (serve 0) (fun _ => true) 1 20 0 m) ∧
      endText (run (serve 0) 1 20 m) = some "(t t t)" := by
  have texts : endTexts "(defun f (x) (cons x (list x x)))" "f" =
      some (some "(t t t)", some "(t t t)") := by decide +kernel
  unfold endTexts at texts
  split at texts
  · cases texts
  · next m booted =>
      split at texts
      · cases texts
      · next results m₁ ran =>
          split at texts
          · cases texts
          · next r _ =>
              split at texts
              · cases texts
              · next code found =>
                  obtain ⟨plain, collecting⟩ := Prod.mk.inj (Option.some.inj texts)
                  have resting := ((Resting.boot booted).evalText ran).1
                  have intact := resting.intact.aboutToRun found
                  have depth : (m₁.aboutToRun code).depth = 2 := by
                    simp [aboutToRun, Machine.withFrame, Machine.depth, resting.idle]
                  exact ⟨_, intact, depth, (collections_cannot_be_observed intact _ _ 1 20
                    (hasRoom_of_endText plain) (hasRoom_of_endText collecting)).1, plain⟩

end Machine

end LispMachine
