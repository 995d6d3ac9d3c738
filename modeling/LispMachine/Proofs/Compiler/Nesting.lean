import LispMachine.Proofs.Compiler.Contract
import LispMachine.Proofs.Compiler.Fuel

/-!
# How deep expansions nest

A compilation comes to macro calls one after the other. Each lies inside the expansions
that it was found in, one in the other; calls that stand side by side are not inside each
other. What the compiler does with the first call on which it fails is what becomes of the
whole compilation, and if every macro that is called comes to its end, then so does the
compilation: the levels that are left go down with each expansion, and the height of a
form with each part.
-/

namespace LispMachine

open Machine

namespace Compile

/-- A compilation only adds to a machine on which code may run. -/
def adding (host : Host) (fuel : Nat) {m : Machine} (ready : m.Ready) :
    Contract (expandWith host fuel) where
  holds := m.Grows
  covers _ := True
  allows _ _ := True
  own _ _ _ := trivial
  noted _ journal grows := grows.withJournal journal
  found _ _ _ _ _ _ := trivial
  runs code args _ _ _ grows :=
    ⟨grows.trans (expandWith_grows host fuel code args (grows.ready ready)), allowed_all _⟩

/-- With enough fuel, compiling a form inside which expansions may nest `levels` deep comes to
    this result. -/
structure Yields (home : ModuleId) (levels : Nat) (form : Ref) (w : Workbench)
    (result : EStateM.Result (Stop CompileError) Workbench Unit) : Prop where
  ends : Terminates result
  found : ∃ fuel, emitAt home (runMacro fuel) fuel levels form w = result

/-- Carrying out an outline comes to compiling a part on a workbench, after the parts before it
    were compiled with success. -/
def Outline.Leads (home : ModuleId) (levels : Nat) : Outline → Workbench → Ref → Workbench → Prop
  | done, _, _, _ => False
  | fails _, _, _, _ => False
  | write change rest, w, form, w' => rest.Leads home levels ⟨w.machine, change w.draft⟩ form w'
  | look next, w, form, w' => (next w.draft).Leads home levels w form w'
  | part first rest, w, form, w' =>
      (form = first ∧ w' = w) ∨
        ∃ w₁, Yields home levels first w (.ok () w₁) ∧ rest.Leads home levels w₁ form w'
  | expand _, _, _, _ => False

/-- Compiling a form, inside which expansions may nest `levels` deep, comes to a macro call that
    lies inside `depth` expansions, each found in an evaluated position of the one around it,
    and nothing before it fails. -/
inductive Meets (home : ModuleId) : Nat → Ref → Workbench → Nat → MacroCall → Workbench → Prop where
  | here {levels : Nat} {call : MacroCall} {w : Workbench} : w.machine.CallsMacro home call →
      Meets home levels call.form w 0 call w
  | part {levels depth : Nat} {form part : Ref} {call : MacroCall} {w w₁ w' : Workbench} :
      (Outline.ofForm home w.machine form).Leads home levels w part w₁ →
      Meets home levels part w₁ depth call w' → Meets home levels form w depth call w'
  | inside {levels depth fuel : Nat} {outer call : MacroCall} {expansion : Ref}
      {w w₁ w' : Workbench} : w.machine.CallsMacro home outer →
      expandOnce (runMacro fuel) outer w = .ok expansion w₁ →
      Meets home levels expansion w₁ depth call w' →
      Meets home (levels + 1) outer.form w (depth + 1) call w'

/-- The macro, run on the arguments of its call, comes to an end. -/
def MacroCall.Stops (call : MacroCall) (m : Machine) : Prop :=
  ∀ args, m.heap.items? call.rest = some args → ∃ fuel, Terminates (runMacro fuel call.code args m)

/-- What the macro makes of the arguments of its call is a whole value. -/
def MacroCall.MakesWhole (call : MacroCall) (m : Machine) : Prop :=
  ∀ args fuel value m', m.heap.items? call.rest = some args →
    runMacro fuel call.code args m = .ok value m' → m'.heap.Whole value

variable {home : ModuleId} {levels depth : Nat} {form : Ref} {call : MacroCall} {w w' : Workbench}
  {result : EStateM.Result (Stop CompileError) Workbench Unit}

/-- The outline of a macro call. -/
theorem Outline.ofForm_call {m : Machine} (calls : m.CallsMacro home call) :
    Outline.ofForm home m call.form = .expand call := by
  rcases Outline.ofForm_cases home m call.form with ⟨found, same, calls', outline⟩ | ⟨none_, _⟩
  · rw [outline]
    rcases call with ⟨form, head, rest, code⟩
    rcases found with ⟨form', head', rest', code'⟩
    obtain rfl : form' = form := same
    have halves := calls.plain.1.symm.trans calls'.plain.1
    cases halves
    have codes := calls.found.symm.trans calls'.found
    cases codes
    rfl
  · exact absurd calls (none_ call rfl)

theorem Outline.calls_of_expand {m : Machine} (outline : Outline.ofForm home m form = .expand call) :
    call.form = form ∧ m.CallsMacro home call := by
  rcases Outline.ofForm_cases home m form with ⟨found, same, calls, outline'⟩ | ⟨_, fits⟩
  · cases outline.symm.trans outline'
    exact ⟨same, calls⟩
  · cases fits with
    | fails outline' _ _ => cases outline.symm.trans outline'
    | serves _ serves =>
        rw [outline] at serves
        exact (serves .empty).elim

theorem meets_of_expand (outline : Outline.ofForm home w.machine form = .expand call) :
    Meets home levels form w 0 call w := by
  obtain ⟨rfl, calls⟩ := Outline.calls_of_expand outline
  exact .here calls

/-- A macro call comes to itself, and to what its expansion comes to. -/
theorem Meets.of_expand {outer : MacroCall}
    (outline : Outline.ofForm home w.machine form = .expand outer)
    (meets : Meets home levels form w depth call w') :
    (call = outer ∧ w' = w) ∨
      ∃ inside around fuel expansion w₁, expandOnce (runMacro fuel) outer w = .ok expansion w₁ ∧
        Meets home inside expansion w₁ around call w' := by
  cases meets with
  | here calls =>
      cases (Outline.ofForm_call calls).symm.trans outline
      exact .inl ⟨rfl, rfl⟩
  | part leads _ =>
      rw [outline] at leads
      exact leads.elim
  | inside calls done meets =>
      cases (Outline.ofForm_call calls).symm.trans outline
      exact .inr ⟨_, _, _, _, _, done, meets⟩

/-- A form that is no macro call comes to what its parts come to. -/
theorem Meets.of_leads (other : ∀ outer, Outline.ofForm home w.machine form ≠ .expand outer)
    (meets : Meets home levels form w depth call w') :
    ∃ part w₁, (Outline.ofForm home w.machine form).Leads home levels w part w₁ ∧
      Meets home levels part w₁ depth call w' := by
  cases meets with
  | here calls => exact absurd (Outline.ofForm_call calls) (other _)
  | part leads meets => exact ⟨_, _, leads, meets⟩
  | inside calls _ _ => exact absurd (Outline.ofForm_call calls) (other _)

/-- A form that is compiled within some fuel comes to the same with more. -/
theorem Yields.steady (yields : Yields home levels form w result) (ready : w.machine.Ready) :
    ∃ enough, ∀ fuel walk, enough ≤ fuel → enough ≤ walk →
      emitForm home (emitExpansion home fuel levels) walk form w = result := by
  obtain ⟨ends, enough, done⟩ := yields
  refine ⟨enough, fun fuel walk large deep => ?_⟩
  rw [emitAt_eq] at done
  rw [← done] at ends ⊢
  exact (emitForm_lasts (emitExpansion_lasts home large levels) deep form w ready ends).1

/-- Compiling a form adds to the machine only. -/
theorem Yields.grows (yields : Yields home levels form w result) (ready : w.machine.Ready) :
    w.machine.Grows (after result).machine := by
  obtain ⟨_, fuel, rfl⟩ := yields
  exact (upholds_emitAt (c := adding (serve fuel) fuel ready) home fuel levels form w (.refl _)).1

theorem Yields.ready (yields : Yields home levels form w result) (ready : w.machine.Ready) :
    (after result).machine.Ready := (yields.grows ready).ready ready

theorem expandOnce_grows (call : MacroCall) (ready : w.machine.Ready) (fuel : Nat) :
    w.machine.Grows (after (expandOnce (runMacro fuel) call w)).machine :=
  (upholds_expandOnce (c := adding (serve fuel) fuel ready) trivial w (.refl _)).1

theorem expandOnce_ready {fuel : Nat} {expansion : Ref} (ready : w.machine.Ready)
    (done : expandOnce (runMacro fuel) call w = .ok expansion w') : w'.machine.Ready := by
  have grown := expandOnce_grows call ready fuel
  rw [done] at grown
  exact grown.ready ready

/-- Fuel that suffices decides nothing but whether it suffices. -/
theorem Yields.unique {result' : EStateM.Result (Stop CompileError) Workbench Unit}
    (ready : w.machine.Ready) (yields : Yields home levels form w result)
    (yields' : Yields home levels form w result') : result = result' := by
  obtain ⟨enough, steady⟩ := yields.steady ready
  obtain ⟨enough', steady'⟩ := yields'.steady ready
  have large := Nat.le_max_left enough enough'
  have large' := Nat.le_max_right enough enough'
  exact (steady _ _ large large).symm.trans (steady' _ _ large' large')

theorem expandOnce_unique {fuel fuel' : Nat} {expansion expansion' : Ref} {w₁ w₂ : Workbench}
    (ready : w.machine.Ready) (done : expandOnce (runMacro fuel) call w = .ok expansion w₁)
    (done' : expandOnce (runMacro fuel') call w = .ok expansion' w₂) :
    expansion = expansion' ∧ w₁ = w₂ := by
  have first := expandOnce_more ready done (terminates_ok _ _) (Nat.le_max_left fuel fuel')
  have second := expandOnce_more ready done' (terminates_ok _ _) (Nat.le_max_right fuel fuel')
  cases first.symm.trans second
  exact ⟨rfl, rfl⟩

/-- What has been compiled within some fuel is what compiling comes to. -/
theorem yields_of_emitForm {fuel walk : Nat} (ready : w.machine.Ready) (ends : Terminates result)
    (done : emitForm home (emitExpansion home fuel levels) walk form w = result) :
    Yields home levels form w result := by
  refine ⟨ends, max fuel walk, ?_⟩
  rw [← done] at ends ⊢
  rw [emitAt_eq]
  exact (emitForm_lasts (emitExpansion_lasts home (Nat.le_max_left fuel walk) levels)
    (Nat.le_max_right fuel walk) form w ready ends).1

/-- With enough fuel, carrying out an outline comes to this result. -/
def Outline.Comes (home : ModuleId) (levels : Nat) (outline : Outline) (w : Workbench)
    (result : EStateM.Result (Stop CompileError) Workbench Unit) : Prop :=
  ∃ enough, ∀ fuel walk, enough ≤ fuel → enough ≤ walk →
    outline.run (emitForm home (emitExpansion home fuel levels) walk)
      (emitExpansion home fuel levels) w = result

theorem yields_of_comes (comes : (Outline.ofForm home w.machine form).Comes home levels w result)
    (ends : Terminates result) : Yields home levels form w result := by
  obtain ⟨enough, done⟩ := comes
  refine ⟨ends, enough + 1, ?_⟩
  rw [emitAt_eq, emitForm_succ]
  exact done _ _ (Nat.le_succ enough) (Nat.le_refl enough)

/-! ## Failures are passed on -/

/-- A failure of the part that an outline leads to is the failure of the outline. -/
theorem Outline.Leads.passes {outline : Outline} {part : Ref}
    (leads : outline.Leads home levels w part w') (ready : w.machine.Ready) :
    w'.machine.Ready ∧ ∃ enough, ∀ fuel walk, enough ≤ fuel → enough ≤ walk → ∀ e s,
      emitForm home (emitExpansion home fuel levels) walk part w' = .error e s →
      outline.run (emitForm home (emitExpansion home fuel levels) walk)
        (emitExpansion home fuel levels) w = .error e s := by
  induction outline generalizing w with
  | done => exact leads.elim
  | fails error => exact leads.elim
  | write change rest ih => exact ih leads ready
  | look next ih => exact ih w.draft leads ready
  | expand call => exact leads.elim
  | part first rest ih =>
      rcases leads with ⟨rfl, rfl⟩ | ⟨w₁, yields, leads⟩
      · refine ⟨ready, 0, fun fuel walk _ _ e s failed => ?_⟩
        rw [Outline.run_part, bind_apply, failed]
      · obtain ⟨enough₁, done⟩ := yields.steady ready
        obtain ⟨ready', enough₂, passes⟩ := ih leads (yields.ready ready)
        refine ⟨ready', max enough₁ enough₂, fun fuel walk large deep e s failed => ?_⟩
        rw [Outline.run_part, bind_apply, done fuel walk (by omega) (by omega)]
        exact passes fuel walk (by omega) (by omega) e s failed

/-- A failure of the macro call that a compilation comes to is the failure of the compilation. -/
theorem Meets.passes (meets : Meets home levels form w depth call w') (ready : w.machine.Ready) :
    depth ≤ levels ∧ w'.machine.Ready ∧ ∃ enough, ∀ fuel walk, enough ≤ fuel → enough ≤ walk →
      ∀ e s, emitExpansion home fuel (levels - depth) call w' = .error e s →
        emitForm home (emitExpansion home fuel levels) walk form w = .error e s := by
  induction meets with
  | here calls =>
      refine ⟨Nat.zero_le _, ready, 1, fun fuel walk _ deep e s failed => ?_⟩
      obtain ⟨walk, rfl⟩ : ∃ n, walk = n + 1 := ⟨walk - 1, by omega⟩
      rw [emitForm_succ, Outline.ofForm_call calls]
      exact failed
  | part leads _ ih =>
      obtain ⟨ready₁, enough₁, passes₁⟩ := leads.passes ready
      obtain ⟨shallow, ready', enough₂, passes₂⟩ := ih ready₁
      refine ⟨shallow, ready', max enough₁ enough₂ + 1, fun fuel walk large deep e s failed => ?_⟩
      obtain ⟨walk, rfl⟩ : ∃ n, walk = n + 1 := ⟨walk - 1, by omega⟩
      rw [emitForm_succ]
      refine passes₁ fuel walk (by omega) (by omega) e s ?_
      exact passes₂ fuel walk (by omega) (by omega) e s failed
  | @inside levels depth fuel₁ outer call expansion w w₁ w' calls done _ ih =>
      obtain ⟨shallow, ready', enough, passes⟩ := ih (expandOnce_ready ready done)
      refine ⟨Nat.succ_le_succ shallow, ready', max fuel₁ enough + 1,
        fun fuel walk large deep e s failed => ?_⟩
      obtain ⟨walk, rfl⟩ : ∃ n, walk = n + 1 := ⟨walk - 1, by omega⟩
      rw [Nat.add_sub_add_right] at failed
      rw [emitForm_succ, Outline.ofForm_call calls, Outline.run, emitExpansion, bind_apply,
        expandOnce_more ready done (terminates_ok _ _) (by omega)]
      dsimp only
      rw [emitAt_eq]
      exact passes fuel fuel (by omega) (by omega) e s failed

/-- The failure of an expansion is about its arguments or about the macro. -/
theorem expandOnce_failed {expand : Expand} {error : Stop CompileError}
    (failed : expandOnce expand call w = .error error w') (deepest : Nat) :
    error ≠ .failed (.macroRecursion deepest) := by
  rw [expandOnce_apply] at failed
  rcases itemsOf_cases call.rest call.form "macro call" w.machine with
    ⟨args, taken, _⟩ | ⟨obstacle, taken, _, stands⟩
  · simp only [taken] at failed
    cases ran : expand call.code args w.machine with
    | ok value m =>
        rw [ran] at failed
        cases failed
    | error e m =>
        rw [ran] at failed
        cases e <;> cases failed <;> exact nofun
  · simp only [taken] at failed
    cases failed
    exact stands.ne_recursion deepest

/-- An outline that fails for the depth of expansions does so in one of its parts. -/
theorem Outline.leads_of_recursion {outline : Outline} {parts : List Ref} {fuel walk : Nat}
    {onMacro : MacroCall → Compile Unit} {needs : Draft → String → Nat → Prop}
    (serves : outline.Serves needs parts w.draft) (ready : w.machine.Ready)
    (failed : outline.run (emitForm home (emitExpansion home fuel levels) walk) onMacro w =
      .error (.failed (.macroRecursion maxMacroDepth)) w') :
    ∃ part w₁, outline.Leads home levels w part w₁ ∧ w₁.machine.Ready ∧
      emitForm home (emitExpansion home fuel levels) walk part w₁ =
        .error (.failed (.macroRecursion maxMacroDepth)) w' := by
  induction outline generalizing parts w with
  | done => cases failed
  | fails error =>
      obtain ⟨what, index, rfl, _⟩ := serves
      cases failed
  | write change rest ih => exact ih (w := ⟨w.machine, change w.draft⟩) serves ready failed
  | look next ih => exact ih w.draft serves ready failed
  | expand call => exact serves.elim
  | part first rest ih =>
      obtain ⟨later, rfl, serves⟩ := serves
      rw [Outline.run_part, bind_apply] at failed
      cases done : emitForm home (emitExpansion home fuel levels) walk first w with
      | error e w₁ =>
          rw [done] at failed
          cases failed
          exact ⟨first, w, .inl ⟨rfl, rfl⟩, ready, done⟩
      | ok _ w₁ =>
          rw [done] at failed
          have yields := yields_of_emitForm ready (terminates_ok _ _) done
          obtain ⟨part, w₂, leads, ready₂, inner⟩ := ih (serves _) (yields.ready ready) failed
          exact ⟨part, w₂, .inr ⟨w₁, yields, leads⟩, ready₂, inner⟩

/-- A walk that fails for the depth of expansions has come to a call that lies too deep, if the
    macro calls that it comes to have. -/
theorem meets_of_walk {fuel walk : Nat} (ready : w.machine.Ready)
    (calls : ∀ (call : MacroCall) (w : Workbench), w.machine.Ready → w.machine.CallsMacro home call →
      emitExpansion home fuel levels call w = .error (.failed (.macroRecursion maxMacroDepth)) w' →
      ∃ inner w₁, Meets home levels call.form w levels inner w₁)
    (failed : emitForm home (emitExpansion home fuel levels) walk form w =
      .error (.failed (.macroRecursion maxMacroDepth)) w') :
    ∃ call w₁, Meets home levels form w levels call w₁ := by
  induction walk generalizing form w with
  | zero => cases failed
  | succ walk ih =>
      rw [emitForm_succ] at failed
      rcases Outline.ofForm_cases home w.machine form with ⟨call, rfl, found, outline⟩ | ⟨_, fits⟩
      · rw [outline] at failed
        exact calls call w ready found failed
      · cases fits with
        | fails outline obstacle _ =>
            rw [outline] at failed
            cases failed
            exact absurd rfl (obstacle.ne_recursion maxMacroDepth)
        | serves _ serves =>
            obtain ⟨part, w₁, leads, ready₁, inner⟩ :=
              Outline.leads_of_recursion (serves _) ready failed
            obtain ⟨call, w₂, meets⟩ := ih ready₁ inner
            exact ⟨call, w₂, .part leads meets⟩

/-- Compiling fails for the depth of expansions only where it has come to a call that lies too
    deep; the induction is on the levels that are left. -/
theorem meets_of_recursion {fuel walk : Nat} (ready : w.machine.Ready)
    (failed : emitForm home (emitExpansion home fuel levels) walk form w =
      .error (.failed (.macroRecursion maxMacroDepth)) w') :
    ∃ call w₁, Meets home levels form w levels call w₁ := by
  induction levels generalizing form w walk with
  | zero => exact meets_of_walk ready (fun call w _ found _ => ⟨call, w, .here found⟩) failed
  | succ levels ih =>
      refine meets_of_walk ready (fun call w ready found failed => ?_) failed
      rw [emitExpansion, bind_apply] at failed
      cases done : expandOnce (runMacro fuel) call w with
      | error e w₁ =>
          rw [done] at failed
          cases failed
          exact absurd rfl (expandOnce_failed done maxMacroDepth)
      | ok expansion w₁ =>
          rw [done] at failed
          dsimp only at failed
          rw [emitAt_eq] at failed
          obtain ⟨inner, w₂, meets⟩ := ih (expandOnce_ready ready done) failed
          exact ⟨inner, w₂, .inside found done meets⟩

/-! ## Compilations come to their end -/

/-- An outline comes to its end if the parts do that it leads to. -/
theorem Outline.comes_of_parts {outline : Outline} {parts : List Ref}
    {needs : Draft → String → Nat → Prop} (serves : outline.Serves needs parts w.draft)
    (ready : w.machine.Ready)
    (each : ∀ part ∈ parts, ∀ w', w.machine.Grows w'.machine →
      outline.Leads home levels w part w' → ∃ result, Yields home levels part w' result) :
    ∃ result, Terminates result ∧ outline.Comes home levels w result := by
  induction outline generalizing parts w with
  | done => exact ⟨.ok () w, terminates_ok _ _, 0, fun _ _ _ _ => rfl⟩
  | fails error =>
      obtain ⟨what, index, rfl, _⟩ := serves
      exact ⟨_, terminates_failed _ w, 0, fun _ _ _ _ => rfl⟩
  | write change rest ih => exact ih (w := ⟨w.machine, change w.draft⟩) serves ready each
  | look next ih => exact ih w.draft serves ready each
  | expand call => exact serves.elim
  | part first rest ih =>
      obtain ⟨later, rfl, serves⟩ := serves
      obtain ⟨here, yields⟩ := each first (by simp) w (.refl _) (.inl ⟨rfl, rfl⟩)
      obtain ⟨enough, done⟩ := yields.steady ready
      cases here with
      | error e w₁ =>
          refine ⟨_, yields.ends, enough, fun fuel walk large deep => ?_⟩
          rw [Outline.run_part, bind_apply, done fuel walk large deep]
      | ok _ w₁ =>
          have grown := yields.grows ready
          obtain ⟨result, ends, enough', done'⟩ := ih (w := w₁) (serves _) (yields.ready ready)
            fun part member w' grows leads => each part (by simp [member]) w' (grown.trans grows)
              (.inr ⟨w₁, yields, leads⟩)
          refine ⟨result, ends, max enough enough', fun fuel walk large deep => ?_⟩
          rw [Outline.run_part, bind_apply, done fuel walk (by omega) (by omega)]
          exact done' fuel walk (by omega) (by omega)

/-- An expansion that fails. -/
theorem emitExpansion_failed {fuel more : Nat} {error : CompileError} (ready : w.machine.Ready)
    (failed : expandOnce (runMacro fuel) call w = .error (.failed error) w') (le : fuel ≤ more) :
    emitExpansion home more (levels + 1) call w = .error (.failed error) w' := by
  rw [emitExpansion, bind_apply, expandOnce_more ready failed (terminates_failed _ _) le]

/-- An expansion that is compiled. -/
theorem emitExpansion_ok {fuel : Nat} {expansion : Ref} (ready : w.machine.Ready)
    (done : expandOnce (runMacro fuel) call w = .ok expansion w')
    (yields : Yields home levels expansion w' result) :
    ∃ enough, ∀ more, enough ≤ more → emitExpansion home more (levels + 1) call w = result := by
  obtain ⟨enough, steady⟩ := yields.steady (expandOnce_ready ready done)
  refine ⟨max fuel enough, fun more large => ?_⟩
  rw [emitExpansion, bind_apply, expandOnce_more ready done (terminates_ok _ _) (by omega)]
  dsimp only
  rw [emitAt_eq]
  exact steady more more (by omega) (by omega)

/-- A macro call whose expansion is compiled. -/
theorem yields_of_expandOnce {fuel : Nat} {expansion : Ref} (ready : w.machine.Ready)
    (outline : Outline.ofForm home w.machine form = .expand call)
    (done : expandOnce (runMacro fuel) call w = .ok expansion w')
    (yields : Yields home levels expansion w' result) : Yields home (levels + 1) form w result := by
  obtain ⟨enough, steady⟩ := emitExpansion_ok ready done yields
  refine yields_of_comes ?_ yields.ends
  rw [outline]
  exact ⟨enough, fun more _ large _ => steady more large⟩

/-- A macro call is compiled to its end if its arguments have an end, the macro stops and the
    expansion is compiled. -/
theorem yields_of_call (ready : w.machine.Ready) (calls : w.machine.CallsMacro home call)
    (finite : w.machine.heap.isEndless call.rest = false) (stops : call.Stops w.machine)
    (inner : ∀ fuel expansion w', expandOnce (runMacro fuel) call w = .ok expansion w' →
      ∃ result, Yields home levels expansion w' result) :
    ∃ result, Yields home (levels + 1) call.form w result := by
  have outline := Outline.ofForm_call calls
  obtain ⟨fuel, ends⟩ : ∃ fuel, Terminates (expandOnce (runMacro fuel) call w) := by
    simp only [terminates_expandOnce_iff]
    cases listed : w.machine.heap.items? call.rest with
    | none => exact ⟨0, finite, nofun⟩
    | some args =>
        obtain ⟨fuel, ends⟩ := stops args listed
        refine ⟨fuel, finite, fun args' same => ?_⟩
        cases same
        exact ends
  cases done : expandOnce (runMacro fuel) call w with
  | error e w₁ =>
      rw [done] at ends
      obtain ⟨error, rfl⟩ := ends.error
      refine ⟨.error (.failed error) w₁, yields_of_comes ?_ (terminates_failed _ _)⟩
      rw [outline]
      exact ⟨fuel, fun more _ large _ => emitExpansion_failed ready done large⟩
  | ok expansion w₁ =>
      obtain ⟨result, yields⟩ := inner fuel expansion w₁ done
      exact ⟨result, yields_of_expandOnce ready outline done yields⟩

/-- Where no expansion may nest, a macro call lies too deep. -/
theorem yields_of_deep (calls : w.machine.CallsMacro home call) :
    Yields home 0 call.form w (.error (.failed (.macroRecursion maxMacroDepth)) w) := by
  refine yields_of_comes ?_ (terminates_failed _ _)
  rw [Outline.ofForm_call calls]
  exact ⟨0, fun _ _ _ _ => rfl⟩

/-- A whole form is compiled to its end if the macro calls are that it comes to; the induction
    is on the height of the form, which later allocations leave as it is. -/
theorem yields_of_calls {n : Nat} (ready : w.machine.Ready) (whole : w.machine.heap.Whole form)
    (within : Bounded w.machine.heap.HasHalf n form)
    (calls : ∀ (call : MacroCall) (w' : Workbench), w.machine.Grows w'.machine →
      w'.machine.CallsMacro home call → w'.machine.heap.isEndless call.rest = false →
      (∀ depth inner w'', Meets home levels call.form w' depth inner w'' →
        Meets home levels form w depth inner w'') →
      ∃ result, Yields home levels call.form w' result) :
    ∃ result, Yields home levels form w result := by
  induction n using Nat.strongRecOn generalizing form w with
  | _ n ih =>
      rcases Outline.ofForm_cases home w.machine form with ⟨call, rfl, found, _⟩ | ⟨_, fits⟩
      · obtain ⟨k, _, below⟩ := within.next ⟨call.head, call.rest, found.plain.1, .inr rfl⟩
        exact calls call w (.refl _) found (Heap.isEndless_of_within below) fun _ _ _ meets => meets
      · cases fits with
        | fails outline obstacle _ =>
            obtain ⟨error, rfl, _⟩ := obstacle.malformed_of_within within
            refine ⟨.error (.failed error) w, yields_of_comes ?_ (terminates_failed _ _)⟩
            rw [outline]
            exact ⟨0, fun _ _ _ _ => rfl⟩
        | @serves parts found serves =>
            have each : ∀ part ∈ parts, ∀ w', w.machine.Grows w'.machine →
                (Outline.ofForm home w.machine form).Leads home levels w part w' →
                ∃ result, Yields home levels part w' result := by
              intro part member w' grows leads
              have below : Relation.TransGen w.machine.heap.HasHalf form part :=
                Heap.HasPart.below ⟨parts, found, member⟩
              have keeps := grows.keeps ready
              have wholePart := whole.below below.to_reflTransGen
              obtain ⟨k, less, within'⟩ := within.descend below
              refine ih k less (grows.ready ready) (wholePart.kept keeps)
                (wholePart.bounded keeps within') fun call w'' grows' found' finite inside => ?_
              exact calls call w'' (grows.trans grows') found' finite
                fun depth inner _ meets => .part leads (inside depth inner _ meets)
            obtain ⟨result, ends, comes⟩ := Outline.comes_of_parts (serves _) ready each
            exact ⟨result, yields_of_comes comes ends⟩

/-- What a macro makes that makes whole values only is whole in the machine that it leaves. -/
theorem expandOnce_whole {fuel : Nat} {expansion : Ref} (makes : call.MakesWhole w.machine)
    (done : expandOnce (runMacro fuel) call w = .ok expansion w') :
    w'.machine.heap.Whole expansion := by
  rw [expandOnce_apply] at done
  rcases itemsOf_cases call.rest call.form "macro call" w.machine with
    ⟨args, taken, listed⟩ | ⟨error, taken, _⟩
  · simp only [taken] at done
    obtain ⟨journal, left⟩ :=
      expanded_machine call w.draft (runMacro fuel call.code args w.machine)
    rw [done] at left
    cases ran : runMacro fuel call.code args w.machine with
    | error e m =>
        rw [ran] at done
        cases e <;> cases done
    | ok value m =>
        rw [ran] at done left
        cases done
        rw [after_ok] at left
        rw [left]
        exact makes args fuel expansion m listed ran
  · simp only [taken] at done
    cases done

/-- If the macros stop that a compilation comes to, and what they make is whole, then compiling
    a whole form comes to its end; the induction is on the levels that are left. -/
theorem yields_of_stops (ready : w.machine.Ready) (whole : w.machine.heap.Whole form)
    (stops : ∀ depth call w', depth < levels → Meets home levels form w depth call w' →
      call.Stops w'.machine ∧ call.MakesWhole w'.machine) :
    ∃ result, Yields home levels form w result := by
  induction levels generalizing form w with
  | zero =>
      exact yields_of_calls ready whole whole.acyclic.bounded
        fun call w' _ calls _ _ => ⟨_, yields_of_deep calls⟩
  | succ levels ih =>
      refine yields_of_calls ready whole whole.acyclic.bounded
        fun call w' grows calls finite inside => ?_
      have ready' := grows.ready ready
      obtain ⟨stopped, makes⟩ := stops 0 call w' (Nat.succ_pos _) (inside _ _ _ (.here calls))
      refine yields_of_call ready' calls finite stopped fun fuel expansion w'' done => ?_
      have ready'' := expandOnce_ready ready' done
      refine ih ready'' (expandOnce_whole makes done) fun depth inner w₃ shallow meets => ?_
      exact stops (depth + 1) inner w₃ (Nat.succ_lt_succ shallow)
        (inside _ _ _ (.inside calls done meets))

/-! ## Macros on intact machines -/

theorem Meets.calls (meets : Meets home levels form w depth call w') :
    w'.machine.CallsMacro home call := by
  induction meets with
  | here calls => exact calls
  | part _ _ ih => exact ih
  | inside _ _ _ ih => exact ih

theorem Yields.raises (yields : Yields home levels form w result) (intact : w.machine.Intact)
    (held : w.machine.heap.Held form) : w.machine.Raises (after result).machine := by
  obtain ⟨_, fuel, rfl⟩ := yields
  exact emitAt_raises (expandWith_raises _ _) fuel levels form w intact (by simpa using held)

theorem Outline.Leads.raises {outline : Outline} {part : Ref} {parts : List Ref}
    {needs : Draft → String → Nat → Prop} (leads : outline.Leads home levels w part w')
    (serves : outline.Serves needs parts w.draft) (intact : w.machine.Intact)
    (held : ∀ part ∈ parts, w.machine.heap.Held part) :
    w.machine.Raises w'.machine ∧ w'.machine.heap.Held part := by
  induction outline generalizing parts w with
  | done => exact leads.elim
  | fails error => exact leads.elim
  | write change rest ih => exact ih (w := ⟨w.machine, change w.draft⟩) leads serves intact held
  | look next ih => exact ih w.draft leads serves intact held
  | expand call => exact leads.elim
  | part first rest ih =>
      obtain ⟨later, rfl, serves⟩ := serves
      have here := held first List.mem_cons_self
      rcases leads with ⟨rfl, rfl⟩ | ⟨w₁, yields, leads⟩
      · exact ⟨intact.refl, here⟩
      · have raises := yields.raises intact here
        obtain ⟨raises', there⟩ := ih leads (serves _) raises.intact
          fun part member => raises.held (held part (List.mem_cons_of_mem _ member))
        exact ⟨raises.trans raises', there⟩

theorem Meets.raises (meets : Meets home levels form w depth call w') (intact : w.machine.Intact)
    (held : w.machine.heap.Held form) : w.machine.Raises w'.machine := by
  induction meets with
  | here _ => exact intact.refl
  | @part _ _ form _ _ w _ _ leads _ ih =>
      rcases Outline.ofForm_cases home w.machine form with ⟨_, _, _, outline⟩ | ⟨_, fits⟩
      · rw [outline] at leads
        exact leads.elim
      · cases fits with
        | fails outline _ _ =>
            rw [outline] at leads
            exact leads.elim
        | @serves parts found serves =>
            obtain ⟨raises, there⟩ := leads.raises (serves _) intact fun part member =>
              intact.tidy.closed.below (Heap.HasPart.below ⟨parts, found, member⟩)
            exact raises.trans (ih raises.intact there)
  | @inside _ _ fuel _ _ _ _ _ _ calls done _ ih =>
      obtain ⟨raises, made⟩ := expandOnce_raises (expandWith_raises (serve fuel) fuel) intact calls
      rw [done] at raises
      exact raises.trans (ih raises.intact (made _ _ done))

/-- In an intact machine without a cycle, macros make whole values. -/
theorem Meets.makesWhole (meets : Meets home levels form w depth call w')
    (intact : w.machine.Intact) (founded : w.machine.heap.Founded)
    (held : w.machine.heap.Held form) : call.MakesWhole w'.machine := by
  intro args fuel value m' listed ran
  have raises := meets.raises intact held
  have closed := raises.intact.tidy.closed
  obtain ⟨raises', made⟩ : w'.machine.Raises (after (runMacro fuel call.code args w'.machine)) ∧
      ∀ value m', runMacro fuel call.code args w'.machine = .ok value m' → m'.heap.Held value :=
    expandWith_raises (serve fuel) fuel w'.machine call.code args raises.intact
      (raises.intact.macro_children meets.calls.found)
      fun r member => closed.below (Heap.below_of_items? listed member)
  rw [ran] at raises'
  have all := raises.trans raises'
  exact (all.founded intact founded).whole all.intact.tidy.closed (made value m' ran)

end Compile

end LispMachine
