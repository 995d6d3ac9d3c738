import LispMachine.Proofs.Compiler.Nesting
import LispMachine.Proofs.Toplevel.Founded
import LispMachine.Proofs.Toplevel.Isolation

/-!
# Compilation is bounded

Expansions nest `maxMacroDepth` deep at most, however many of them stand side by side. So a
compilation of whole forms comes to its end if the macros do that it runs, and what they make
is whole. In every state that a machine reaches this is so of all values; a list without an
end, or a free cell that is filled later, can keep the compiler busy for ever.
-/

namespace LispMachine

open Compile

namespace Compile

/-- Compiling the forms of a body one after the other comes to a macro call inside `depth`
    expansions. Every form starts with all levels. -/
def MeetsIn (home : ModuleId) (body : List Ref) (w : Workbench) (depth : Nat) (call : MacroCall)
    (w' : Workbench) : Prop :=
  ∃ form w₁, (Outline.whole body).Leads home maxMacroDepth w form w₁ ∧
    Meets home maxMacroDepth form w₁ depth call w'

/-- Compiling a function comes to a macro call in its body, with the parameters bound. -/
def MeetsInFunction (home : ModuleId) (params : Ref) (body : List Ref) (m : Machine) (depth : Nat)
    (call : MacroCall) (w' : Workbench) : Prop :=
  ∃ names draft, m.heap.items? params = some names ∧
    bindParameters params names ⟨m, .empty⟩ = .ok () ⟨m, draft⟩ ∧
    MeetsIn home body ⟨m, draft⟩ depth call w'

/-- Compiles a body and the return. -/
def emitWhole (home : ModuleId) (fuel : Nat) (body : List Ref) : Compile Unit :=
  (Outline.whole body).run (emitForm home (emitExpansion home fuel maxMacroDepth) fuel)
    (emitExpansion home fuel maxMacroDepth)

section

variable {home : ModuleId} {body : List Ref} {depth : Nat} {call : MacroCall} {w w' : Workbench}

theorem emitWhole_eq (fuel : Nat) :
    (Outline.whole body).run (emitAt home (Machine.runMacro fuel) fuel maxMacroDepth)
      (emitExpansion home fuel maxMacroDepth) = emitWhole home fuel body := by
  rw [emitWhole, funext (emitAt_eq home fuel maxMacroDepth)]

theorem meetsIn_singleton {form : Ref} :
    MeetsIn home [form] w depth call w' ↔ Meets home maxMacroDepth form w depth call w' := by
  constructor
  · rintro ⟨first, w₁, ⟨rfl, rfl⟩ | ⟨_, _, none_⟩, meets⟩
    · exact meets
    · exact none_.elim
  · exact fun meets => ⟨form, w, .inl ⟨rfl, rfl⟩, meets⟩

theorem emitWhole_lasts {fuel more : Nat} (le : fuel ≤ more) :
    Lasts (emitWhole home fuel body) (emitWhole home more body) :=
  Outline.run_lasts (emitForm_lasts (emitExpansion_lasts home le maxMacroDepth) le)
    (emitExpansion_lasts home le maxMacroDepth) _

theorem MeetsIn.passes (meets : MeetsIn home body w depth call w') (ready : w.machine.Ready) :
    depth ≤ maxMacroDepth ∧ w'.machine.Ready ∧ ∃ enough, ∀ fuel, enough ≤ fuel → ∀ e s,
      emitExpansion home fuel (maxMacroDepth - depth) call w' = .error e s →
        emitWhole home fuel body w = .error e s := by
  obtain ⟨form, w₁, leads, meets⟩ := meets
  obtain ⟨ready₁, enough₁, passes₁⟩ := leads.passes ready
  obtain ⟨shallow, ready', enough₂, passes₂⟩ := meets.passes ready₁
  refine ⟨shallow, ready', max enough₁ enough₂, fun fuel large e s failed => ?_⟩
  refine passes₁ fuel fuel (by omega) (by omega) e s ?_
  exact passes₂ fuel fuel (by omega) (by omega) e s failed

/-- Whole forms are compiled to the end if the macros that are run come to theirs and make whole
    values. -/
theorem emitWhole_ends (ready : w.machine.Ready)
    (whole : ∀ form ∈ body, w.machine.heap.Whole form)
    (stops : ∀ depth call w', depth < maxMacroDepth → MeetsIn home body w depth call w' →
      call.Stops w'.machine ∧ call.MakesWhole w'.machine) :
    ∃ fuel, Terminates (emitWhole home fuel body w) := by
  obtain ⟨result, ends, enough, done⟩ :=
    Outline.comes_of_parts (Outline.serves_whole (fun _ _ _ => False) body w.draft) ready
      fun form member w₁ grows leads =>
        yields_of_stops (grows.ready ready) ((whole form member).kept (grows.keeps ready))
          fun depth call w' shallow meets => stops depth call w' shallow ⟨form, w₁, leads, meets⟩
  refine ⟨enough, ?_⟩
  rwa [emitWhole, done enough enough (Nat.le_refl _) (Nat.le_refl _)]

theorem meetsIn_of_recursion {fuel : Nat} (ready : w.machine.Ready)
    (failed : emitWhole home fuel body w = .error (.failed (.macroRecursion maxMacroDepth)) w') :
    ∃ call w', MeetsIn home body w maxMacroDepth call w' := by
  have serves := Outline.serves_whole (fun _ _ _ => False) body w.draft
  obtain ⟨form, w₁, leads, ready₁, inner⟩ := Outline.leads_of_recursion serves ready failed
  obtain ⟨call, w₂, meets⟩ := meets_of_recursion ready₁ inner
  exact ⟨call, w₂, form, w₁, leads, meets⟩

/-- In an intact machine without a cycle, the macros that are run make whole values. -/
theorem MeetsIn.makesWhole (meets : MeetsIn home body w depth call w') (intact : w.machine.Intact)
    (founded : w.machine.heap.Founded) (held : ∀ form ∈ body, w.machine.heap.Held form) :
    call.MakesWhole w'.machine := by
  obtain ⟨form, w₁, leads, meets⟩ := meets
  obtain ⟨raises, there⟩ :=
    leads.raises (Outline.serves_whole (fun _ _ _ => False) body w.draft) intact held
  exact meets.makesWhole raises.intact (raises.founded intact founded) there

end

/-! ## Walks -/

section

variable {home : ModuleId} {call : MacroCall} {w w' : Workbench} {fuel : Nat}

theorem stops_of_terminates (ends : Terminates (expandOnce (Machine.runMacro fuel) call w)) :
    call.Stops w.machine :=
  fun args listed => ⟨fuel, (terminates_expandOnce_iff.1 ends).2 args listed⟩

theorem stops_of_ok {expansion : Ref}
    (done : expandOnce (Machine.runMacro fuel) call w = .ok expansion w') : call.Stops w.machine := by
  have ends : Terminates (expandOnce (Machine.runMacro fuel) call w) := by
    rw [done]
    exact terminates_ok _ _
  exact stops_of_terminates ends

theorem not_terminates_of_endless (endless : w.machine.heap.isEndless call.rest = true) (fuel : Nat) :
    ¬ Terminates (expandOnce (Machine.runMacro fuel) call w) := by
  intro ends
  cases endless.symm.trans (terminates_expandOnce_iff.1 ends).1

/-- A macro call whose arguments have no end comes to no other, and its macro is never run. -/
theorem stops_of_endless {form : Ref} {outer : MacroCall} {levels depth : Nat}
    (outline : Outline.ofForm home w.machine form = .expand outer)
    (endless : w.machine.heap.isEndless outer.rest = true)
    (meets : Meets home levels form w depth call w') :
    call.Stops w'.machine ∧ call.MakesWhole w'.machine := by
  have unlisted : ∀ args, w.machine.heap.items? outer.rest ≠ some args := by
    intro args listed
    cases endless.symm.trans (Heap.isEndless_of_items? listed)
  rcases meets.of_expand outline with ⟨rfl, rfl⟩ | ⟨_, _, fuel, expansion, w₁, made, _⟩
  · constructor
    · intro args listed
      exact absurd listed (unlisted args)
    · intro args fuel value m' listed
      exact absurd listed (unlisted args)
  · refine absurd ?_ (not_terminates_of_endless endless fuel)
    rw [made]
    exact terminates_ok _ _

/-- A macro call that is not expanded to the end is not compiled to the end. -/
theorem emitExpansion_outOfFuel (runs : ¬ Terminates (expandOnce (Machine.runMacro fuel) call w))
    (home : ModuleId) (levels : Nat) :
    ∃ s, emitExpansion home fuel (levels + 1) call w = .error .outOfFuel s := by
  obtain ⟨s, failed⟩ := not_forall_not.1 runs
  refine ⟨s, ?_⟩
  rw [emitExpansion, bind_apply, failed]

/-- Neither is one whose expansion is a list without an end. -/
theorem emitExpansion_endless {expansion : Ref} {more : Nat} (ready : w.machine.Ready)
    (done : expandOnce (Machine.runMacro fuel) call w = .ok expansion w')
    (endless : Outline.ofForm home w'.machine expansion = .fails .outOfFuel) (le : fuel ≤ more)
    (levels : Nat) : ∃ s, emitExpansion home more (levels + 1) call w = .error .outOfFuel s := by
  refine ⟨w', ?_⟩
  rw [emitExpansion, bind_apply, expandOnce_more ready done (terminates_ok _ _) le]
  dsimp only
  rw [emitAt_eq]
  cases more with
  | zero => rfl
  | succ more =>
      rw [emitForm_succ, endless]
      rfl

end

/-- A walk through forms with more and more fuel, and the macro calls that it comes to. -/
structure IsWalk (home : ModuleId) (whole : Prop) (meets : Nat → MacroCall → Workbench → Prop)
    (walk : Nat → EStateM.Result (Stop CompileError) Workbench Unit) : Prop where
  lasts : ∀ fuel more, fuel ≤ more → Terminates (walk fuel) → walk more = walk fuel
  passes : ∀ depth call w, meets depth call w → depth ≤ maxMacroDepth ∧ w.machine.Ready ∧
    ∃ enough, ∀ fuel, enough ≤ fuel → ∀ e s,
      emitExpansion home fuel (maxMacroDepth - depth) call w = .error e s → walk fuel = .error e s
  deep : ∀ fuel s, walk fuel = .error (.failed (.macroRecursion maxMacroDepth)) s →
    ∃ call w, meets maxMacroDepth call w
  ends : whole → (∀ depth call w, depth < maxMacroDepth → meets depth call w →
    call.Stops w.machine ∧ call.MakesWhole w.machine) → ∃ fuel, Terminates (walk fuel)

theorem isWalk_emitWhole {whole : Prop} {home : ModuleId} {body : List Ref} {w : Workbench}
    (ready : w.machine.Ready) (forms : whole → ∀ form ∈ body, w.machine.heap.Whole form) :
    IsWalk home whole (MeetsIn home body w) fun fuel => emitWhole home fuel body w where
  lasts _ _ le ends := (emitWhole_lasts le w ready ends).1
  passes _ _ _ met := met.passes ready
  deep _ _ failed := meetsIn_of_recursion ready failed
  ends whole stops := emitWhole_ends ready (forms whole) stops

namespace IsWalk

variable {home : ModuleId} {whole : Prop} {meets : Nat → MacroCall → Workbench → Prop}
  {fuel depth : Nat} {walk : Nat → EStateM.Result (Stop CompileError) Workbench Unit}
  {call : MacroCall} {w : Workbench} (isWalk : IsWalk home whole meets walk)

include isWalk

/-- A failure at a call that is met is what the walk comes to. -/
theorem reported {error : CompileError} {s : Workbench} (met : meets depth call w)
    (failed : ∃ enough, ∀ more, enough ≤ more →
      emitExpansion home more (maxMacroDepth - depth) call w = .error (.failed error) s) :
    ∃ fuel, walk fuel = .error (.failed error) s := by
  obtain ⟨enough, failed⟩ := failed
  obtain ⟨_, _, enough', passed⟩ := isWalk.passes depth call w met
  exact ⟨max enough enough', passed _ (by omega) _ s (failed _ (by omega))⟩

/-- A walk that comes to a call which is never compiled to the end does not come to its own. -/
theorem not_ends (enough : Nat) (met : meets depth call w)
    (stuck : ∀ more, enough ≤ more →
      ∃ s, emitExpansion home more (maxMacroDepth - depth) call w = .error .outOfFuel s) :
    ¬ Terminates (walk fuel) := by
  intro ends
  obtain ⟨_, _, enough', passed⟩ := isWalk.passes depth call w met
  obtain ⟨s, failed⟩ := stuck (max fuel (max enough enough')) (by omega)
  have both := passed _ (by omega) _ s failed
  rw [isWalk.lasts fuel _ (by omega) ends] at both
  exact ends s both

/-- A walk that has come to its end has met no macro that runs on and on. -/
theorem stops (ends : Terminates (walk fuel)) (shallow : depth < maxMacroDepth)
    (met : meets depth call w) : call.Stops w.machine := by
  by_contra runs
  obtain ⟨levels, left⟩ := Nat.exists_eq_succ_of_ne_zero (Nat.sub_ne_zero_of_lt shallow)
  refine isWalk.not_ends 0 met (fun more _ => ?_) ends
  rw [left]
  exact emitExpansion_outOfFuel (fun ends => runs (stops_of_terminates ends)) home levels

theorem recursion_iff :
    (∃ fuel s, walk fuel = .error (.failed (.macroRecursion maxMacroDepth)) s) ↔
      ∃ call w, meets maxMacroDepth call w := by
  constructor
  · rintro ⟨fuel, s, failed⟩
    exact isWalk.deep fuel s failed
  · rintro ⟨call, w, met⟩
    obtain ⟨fuel, failed⟩ := isWalk.reported (s := w) met ⟨0, fun more _ => by
      rw [Nat.sub_self]
      rfl⟩
    exact ⟨fuel, w, failed⟩

/-- What becomes of a walk that runs a macro which fails. -/
theorem macro_failed {args : List Ref} {enough : Nat} {cause : RuntimeError} {m : Machine}
    (shallow : depth < maxMacroDepth) (met : meets depth call w)
    (listed : w.machine.heap.items? call.rest = some args)
    (ran : Machine.runMacro enough call.code args w.machine = .error (.failed cause) m) :
    ∃ fuel, walk fuel =
      .error (.failed (.macroExpansion (m.display call.head) cause)) ⟨m, w.draft⟩ := by
  have failed : expandOnce (Machine.runMacro enough) call w =
      .error (.failed (.macroExpansion (m.display call.head) cause)) ⟨m, w.draft⟩ := by
    rw [expandOnce_apply]
    simp only [itemsOf, listed, ran, expanded]
  obtain ⟨levels, left⟩ := Nat.exists_eq_succ_of_ne_zero (Nat.sub_ne_zero_of_lt shallow)
  have ready := (isWalk.passes depth call w met).2.1
  refine isWalk.reported met ⟨enough, fun more large => ?_⟩
  rw [left]
  exact emitExpansion_failed ready failed large

end IsWalk

/-! ## The end of a compilation -/

/-- What is said of a compilation and the macro calls that it comes to, each inside a number of
    expansions. -/
structure IsBounded (m : Machine) (whole : Prop) (meets : Nat → MacroCall → Workbench → Prop)
    (compile : Nat → EStateM.Result (Stop CompileError) Machine Code) : Prop where
  /-- It comes to its end if what it is given is whole, and the macros that it runs come to their
      ends and make whole values. -/
  ends : whole → (∀ depth call w, depth < maxMacroDepth → meets depth call w →
    call.Stops w.machine ∧ call.MakesWhole w.machine) → ∃ fuel, Terminates (compile fuel)
  /-- If it comes to its end, then so do the macros that it runs. -/
  stops : ∀ fuel, Terminates (compile fuel) → ∀ depth call w, depth < maxMacroDepth →
    meets depth call w → call.Stops w.machine
  /-- Its result does not depend on the fuel. -/
  lasts : ∀ fuel more, fuel ≤ more → Terminates (compile fuel) → compile more = compile fuel
  /-- Expansions nest too deep if and only if it comes to a call that lies too deep. -/
  recursion : (∃ fuel m', compile fuel = .error (.failed (.macroRecursion maxMacroDepth)) m') ↔
    ∃ call w, meets maxMacroDepth call w
  /-- The failure of a macro that it runs is its own. -/
  failure : ∀ depth call w args enough cause m', depth < maxMacroDepth → meets depth call w →
    w.machine.heap.items? call.rest = some args →
    Machine.runMacro enough call.code args w.machine = .error (.failed cause) m' →
    ∃ fuel, compile fuel = .error (.failed (.macroExpansion (m'.display call.head) cause)) m'
  /-- In all cases the frames and the bindings of all modules stay as they are. -/
  frames : ∀ fuel, m.SameFrames (after (compile fuel))
  names : ∀ fuel, m.SameNames (after (compile fuel))

section

variable {m : Machine} {whole : Prop} {meets : Nat → MacroCall → Workbench → Prop}
  {compile : Nat → EStateM.Result (Stop CompileError) Machine Code}

/-- Where all macros make whole values, only a macro that runs on and on keeps a compilation from
    its end. -/
theorem IsBounded.ends_iff (bounded : IsBounded m whole meets compile) (forms : whole)
    (makes : ∀ depth call w, meets depth call w → call.MakesWhole w.machine) :
    (∃ fuel, Terminates (compile fuel)) ↔
      ∀ depth call w, depth < maxMacroDepth → meets depth call w → call.Stops w.machine := by
  constructor
  · rintro ⟨fuel, ends⟩
    exact bounded.stops fuel ends
  · intro stops
    refine bounded.ends forms fun depth call w shallow met => ?_
    exact ⟨stops depth call w shallow met, makes depth call w met⟩

/-- A compilation that makes code of what a walk has written. -/
theorem IsWalk.isBounded {name : Ref} {home : ModuleId}
    {walk : Nat → EStateM.Result (Stop CompileError) Workbench Unit}
    (isWalk : IsWalk home whole meets walk)
    (finish : ∀ fuel, compile fuel = finished name home (walk fuel))
    (kept : ∀ fuel, m.Undisturbed (after (compile fuel))) : IsBounded m whole meets compile where
  ends forms stops := by
    obtain ⟨fuel, ends⟩ := isWalk.ends forms stops
    refine ⟨fuel, ?_⟩
    rwa [finish, terminates_finished_iff]
  stops fuel ends depth call w shallow met := by
    rw [finish, terminates_finished_iff] at ends
    exact isWalk.stops ends shallow met
  lasts fuel more le ends := by
    rw [finish, terminates_finished_iff] at ends
    rw [finish, finish, isWalk.lasts fuel more le ends]
  recursion := by
    rw [← isWalk.recursion_iff]
    simp only [finish, finished_error]
    constructor
    · rintro ⟨fuel, _, draft, failed⟩
      exact ⟨fuel, ⟨_, draft⟩, failed⟩
    · rintro ⟨fuel, s, failed⟩
      exact ⟨fuel, s.machine, s.draft, failed⟩
  failure depth call w args enough cause m' shallow met listed ran := by
    obtain ⟨fuel, failed⟩ := isWalk.macro_failed shallow met listed ran
    refine ⟨fuel, ?_⟩
    rw [finish, finished_error]
    exact ⟨w.draft, failed⟩
  frames fuel := (kept fuel).frames
  names fuel := (kept fuel).names

/-- A compilation that is refused before it comes to a form. -/
theorem isBounded_of_refused {error : Stop CompileError} (refused : ∀ fuel, compile fuel = .error error m)
    (other : error ≠ .failed (.macroRecursion maxMacroDepth))
    (own : whole → ∃ cause, error = .failed cause) (none_ : ∀ depth call w, ¬ meets depth call w)
    (kept : ∀ fuel, m.Undisturbed (after (compile fuel))) : IsBounded m whole meets compile := by
  have isWalk : IsWalk 0 whole meets fun _ => .error error ⟨m, .empty⟩ := by
    refine ⟨fun _ _ _ _ => rfl, fun depth call w met => absurd met (none_ depth call w), ?_, ?_⟩
    · intro _ s same
      cases same
      exact absurd rfl other
    · intro forms _
      obtain ⟨cause, rfl⟩ := own forms
      exact ⟨0, terminates_failed _ _⟩
  have finish : ∀ fuel, compile fuel = finished .null 0 (.error error ⟨m, .empty⟩) := refused
  exact isWalk.isBounded finish kept

end

end Compile

namespace Machine

section

variable {m : Machine}

theorem compileToplevel_isWalk (ready : m.Ready) (home : ModuleId) (form : Ref) :
    IsWalk home (m.heap.Whole form) (Meets home maxMacroDepth form ⟨m, .empty⟩)
      fun fuel => emitWhole home fuel [form] ⟨m, .empty⟩ := by
  have same : Meets home maxMacroDepth form ⟨m, .empty⟩ = MeetsIn home [form] ⟨m, .empty⟩ := by
    funext depth call w
    exact propext meetsIn_singleton.symm
  rw [same]
  exact isWalk_emitWhole ready fun whole => by simpa using whole

theorem compileToplevel_eq_finished (fuel : Nat) (home : ModuleId) (form : Ref) :
    compileToplevel fuel home form m =
      finished .null home (emitWhole home fuel [form] ⟨m, .empty⟩) := by
  rw [compileToplevel, toplevel_eq (emitExpansion home fuel maxMacroDepth), emitWhole_eq]

theorem compileToplevel_isBounded (ready : m.Ready) (home : ModuleId) (form : Ref) :
    IsBounded m (m.heap.Whole form) (Meets home maxMacroDepth form ⟨m, .empty⟩)
      fun fuel => compileToplevel fuel home form m :=
  (compileToplevel_isWalk ready home form).isBounded
    (fun fuel => compileToplevel_eq_finished fuel home form) fun fuel =>
      (toplevel_upholds (undisturbing (serve fuel) fuel m) (.refl ready) fuel home form).1

theorem compileFunction_isBounded (ready : m.Ready) (home : ModuleId) (name params : Ref)
    (body : List Ref) :
    IsBounded m (m.heap.Acyclic params ∧ ∀ form ∈ body, m.heap.Whole form)
      (MeetsInFunction home params body m)
      fun fuel => compileFunction fuel home name params body m := by
  have kept : ∀ fuel, m.Undisturbed (after (compileFunction fuel home name params body m)) :=
    fun fuel => (function_upholds (undisturbing (serve fuel) fuel m) (.refl ready) fuel home
      name params body).1
  rcases function_cases home name params body m with
    ⟨names, draft, listed, bound, eq⟩ | ⟨error, refusal, none_, eq⟩
  · have same : MeetsInFunction home params body m = MeetsIn home body ⟨m, draft⟩ := by
      funext depth call w
      refine propext ⟨?_, fun met => ⟨names, draft, listed, bound, met⟩⟩
      rintro ⟨names', draft', listed', bound', met⟩
      cases listed.symm.trans listed'
      cases bound.symm.trans bound'
      exact met
    have finish : ∀ fuel, compileFunction fuel home name params body m =
        finished name home (emitWhole home fuel body ⟨m, draft⟩) := fun fuel => by
      rw [compileFunction, eq _ (emitExpansion home fuel maxMacroDepth), emitWhole_eq]
    have isWalk : IsWalk home (m.heap.Acyclic params ∧ ∀ form ∈ body, m.heap.Whole form)
        (MeetsIn home body ⟨m, draft⟩) fun fuel => emitWhole home fuel body ⟨m, draft⟩ :=
      isWalk_emitWhole (w := ⟨m, draft⟩) ready And.right
    rw [same]
    exact isWalk.isBounded finish kept
  · refine isBounded_of_refused (fun fuel => eq _ fuel) (refusal.ne_recursion maxMacroDepth)
      (fun whole => refusal.failed_of_acyclic whole.1) ?_ kept
    rintro depth call w ⟨names, draft, listed, bound, _⟩
    exact none_ names draft listed bound

/-- In a state in which a machine can be used, all forms are whole and all macros make whole
    values. -/
theorem InUse.compileToplevel_ends_iff (inUse : m.InUse) (home : ModuleId) {form : Ref}
    (held : m.heap.Held form) :
    (∃ fuel, Terminates (compileToplevel fuel home form m)) ↔
      ∀ depth call w, depth < maxMacroDepth → Meets home maxMacroDepth form ⟨m, .empty⟩ depth call w →
        call.Stops w.machine := by
  have intact := inUse.resting.intact
  refine (compileToplevel_isBounded intact.ready home form).ends_iff
    (inUse.founded.whole intact.tidy.closed held) ?_
  intro depth call w met
  exact met.makesWhole intact inUse.founded held

theorem InUse.compileFunction_ends_iff (inUse : m.InUse) (home : ModuleId) (name params : Ref)
    {body : List Ref} (held : ∀ form ∈ body, m.heap.Held form) :
    (∃ fuel, Terminates (compileFunction fuel home name params body m)) ↔
      ∀ depth call w, depth < maxMacroDepth → MeetsInFunction home params body m depth call w →
        call.Stops w.machine := by
  have intact := inUse.resting.intact
  have whole : ∀ form ∈ body, m.heap.Whole form := fun form member =>
    inUse.founded.whole intact.tidy.closed (held form member)
  refine (compileFunction_isBounded intact.ready home name params body).ends_iff
    ⟨inUse.founded.acyclic params, whole⟩ ?_
  rintro depth call w ⟨names, draft, _, _, inBody⟩
  exact inBody.makesWhole intact inUse.founded held

/-- In every machine that has the built-in natives only, with whatever frames on it, compiling
    whole forms comes to its end if the macros do that it runs and what they make is whole. Its
    result is then the same with all more fuel. It is the failure for the depth of expansions if
    and only if a macro call is come to inside 64 expansions, and that of a macro that fails. The
    frames and the bindings of all modules stay as they are. In a state in which a machine can be
    used, every value is whole: there compiling comes to its end if and only if the macros do
    that it runs. -/
theorem compilation_is_bounded :
    maxMacroDepth = 64 ∧
    (∀ (m : Machine) (home : ModuleId), m.Ready →
      (∀ form, IsBounded m (m.heap.Whole form) (Meets home maxMacroDepth form ⟨m, .empty⟩)
        fun fuel => compileToplevel fuel home form m) ∧
      ∀ name params body, IsBounded m (m.heap.Acyclic params ∧ ∀ form ∈ body, m.heap.Whole form)
        (MeetsInFunction home params body m)
        fun fuel => compileFunction fuel home name params body m) ∧
    ∀ (m : Machine) (home : ModuleId), m.InUse →
      m.Ready ∧
      (∀ form, m.heap.Held form →
        ((∃ fuel, Terminates (compileToplevel fuel home form m)) ↔
          ∀ depth call w, depth < maxMacroDepth →
            Meets home maxMacroDepth form ⟨m, .empty⟩ depth call w → call.Stops w.machine)) ∧
      ∀ name params body, (∀ form ∈ body, m.heap.Held form) →
        ((∃ fuel, Terminates (compileFunction fuel home name params body m)) ↔
          ∀ depth call w, depth < maxMacroDepth →
            MeetsInFunction home params body m depth call w → call.Stops w.machine) := by
  refine ⟨rfl, fun m home ready => ⟨?_, ?_⟩, fun m home inUse => ⟨inUse.resting.intact.ready, ?_, ?_⟩⟩
  · exact fun form => compileToplevel_isBounded ready home form
  · exact fun name params body => compileFunction_isBounded ready home name params body
  · exact fun form held => inUse.compileToplevel_ends_iff home held
  · exact fun name params body held => inUse.compileFunction_ends_iff home name params held

/-- Whether expansions nest too deep in the value of a variable after a text in a fresh machine. -/
def nestsTooDeep (source name : String) : Bool :=
  match boot { arenaSize := 64 } none with
  | .error _ => false
  | .ok m =>
      match evalText 100 source m with
      | none => false
      | some (_, m) =>
          match m.value? m.user name with
          | none => false
          | some form =>
              match compileToplevel 100 m.user form m with
              | .error (.failed (.macroRecursion 64)) _ => true
              | _ => false

theorem exists_of_nestsTooDeep {source name : String} (deep : nestsTooDeep source name = true) :
    ∃ m form m', m.InUse ∧ m.heap.Held form ∧ compileToplevel 100 m.user form m =
      .error (.failed (.macroRecursion maxMacroDepth)) m' := by
  unfold nestsTooDeep at deep
  split at deep
  · cases deep
  · next m booted =>
      split at deep
      · cases deep
      · next results m₁ ran =>
          split at deep
          · cases deep
          · next form bound =>
              split at deep
              · next m₂ failed =>
                  have inUse : m₁.InUse := .use (.boot booted) (.evalText ran)
                  have held := inUse.resting.intact.held form (mem_roots_of_value? bound)
                  exact ⟨m₁, form, m₂, inUse, held, failed⟩
              · cases deep

/-- The second of two macro calls is expanded to itself without end; the first is expanded
    once. -/
theorem compilation_is_bounded_loop :
    ∃ (m : Machine) (form : Ref), m.InUse ∧ m.Ready ∧ m.heap.Held form ∧ m.heap.Whole form ∧
      (∀ depth call w, depth < maxMacroDepth →
        Meets m.user maxMacroDepth form ⟨m, .empty⟩ depth call w →
        call.Stops w.machine ∧ call.MakesWhole w.machine) ∧
      (∃ fuel, Terminates (compileToplevel fuel m.user form m)) ∧
      ∃ call w, Meets m.user maxMacroDepth form ⟨m, .empty⟩ maxMacroDepth call w := by
  have deep : nestsTooDeep
      "(defmacro one () 1) (defmacro loop () '(loop)) (defvar x '(list (one) (loop)))" "x" =
        true := by decide +kernel
  obtain ⟨m, form, m', inUse, held, failed⟩ := exists_of_nestsTooDeep deep
  have intact := inUse.resting.intact
  have whole := inUse.founded.whole intact.tidy.closed held
  obtain ⟨_, bounded, reached⟩ := compilation_is_bounded
  obtain ⟨ready, ends_iff, _⟩ := reached m m.user inUse
  have all := (bounded m m.user ready).1 form
  have ends : Terminates (compileToplevel 100 m.user form m) := by
    rw [failed]
    exact terminates_failed _ _
  have stops : ∀ depth call w, depth < maxMacroDepth →
      Meets m.user maxMacroDepth form ⟨m, .empty⟩ depth call w →
      call.Stops w.machine ∧ call.MakesWhole w.machine := fun depth call w shallow met =>
    ⟨(ends_iff form held).1 ⟨100, ends⟩ depth call w shallow met,
      met.makesWhole intact inUse.founded held⟩
  exact ⟨m, form, inUse, ready, held, whole, stops, all.ends whole stops,
    all.recursion.1 ⟨100, m', failed⟩⟩

end

/-! ## Macros that make no whole values -/

/-- The code of a macro that makes a list without an end. -/
def ringCode : Code := ⟨⟨1⟩, 0, false, 0, #[⟨3⟩], #[1, 0, 9], .null⟩

/-- The code of a macro that makes the empty list, after the cell that is allocated next has
    become a call of the macro on a list without an end. -/
def fillCode : Code :=
  ⟨⟨5⟩, 0, false, 0, #[⟨6⟩, ⟨5⟩, ⟨11⟩], #[1, 0, 1, 1, 1, 2, 8, 2, 10, 0, 9], .null⟩

/-- A machine with these two macros, the form `(ring)` in its fourth cell, the form `((fill) x)`
    in its ninth and a free cell, which is `x`. -/
def ringing : Machine :=
  { blank {} none with
    store := .ofHeap
      { Heap.ofArenaSize 1 with
        cells := (([.scalar (.symbol "ring"), .scalar (.expander ringCode), .pair .null ⟨3⟩,
            .pair ⟨1⟩ .null, .scalar (.symbol "fill"), .scalar (.native (.builtin .cons)),
            .scalar (.expander fillCode), .pair ⟨5⟩ .null, .pair ⟨8⟩ ⟨10⟩, .pair ⟨11⟩ .null,
            .free .null] : List Cell).map fun cell => ⟨cell, false⟩).toArray
        freeHead := ⟨11⟩
        freeCount := 1 }
    registry := ⟨#[⟨.null, .null, [], [(⟨1⟩, ⟨2⟩), (⟨5⟩, ⟨7⟩)]⟩], []⟩ }

theorem ringing_wellFormed : ringing.heap.WellFormed where
  arenas := ⟨11, rfl⟩
  free := by
    refine ⟨[10], .cons rfl .nil, List.nodup_singleton 10, ?_, rfl⟩
    intro slot
    rcases slot with _ | _ | _ | _ | _ | _ | _ | _ | _ | _ | _ | slot <;>
      simp [Heap.FreeAt, ringing, Store.ofHeap, Cell.isFree]

theorem ringing_ready : ringing.Ready where
  wellFormed := ringing_wellFormed
  plain := by
    rintro ⟨_ | _ | _ | _ | _ | _ | _ | _ | _ | _ | _ | _ | index⟩ probe found <;> cases found

/-- The call in the fourth cell. -/
def ringCall : MacroCall := ⟨⟨4⟩, ⟨1⟩, .null, ringCode⟩

/-- The call in the eighth cell. -/
def fillCall : MacroCall := ⟨⟨8⟩, ⟨5⟩, .null, fillCode⟩

/-- The call that the free cell comes to hold. -/
def filledCall : MacroCall := ⟨⟨11⟩, ⟨5⟩, ⟨11⟩, fillCode⟩

theorem ring_makes : ∃ rung : Workbench,
    expandOnce (runMacro 8) ringCall ⟨ringing, .empty⟩ = .ok ⟨3⟩ rung ∧
      Outline.ofForm 0 rung.machine ⟨3⟩ = .fails .outOfFuel :=
  ⟨after (expandOnce (runMacro 8) ringCall ⟨ringing, .empty⟩), by with_unfolding_all rfl,
    by with_unfolding_all rfl⟩

theorem fill_makes : ∃ made : Workbench,
    expandOnce (runMacro 20) fillCall ⟨ringing, .empty⟩ = .ok .null made ∧
      Outline.ofForm 0 made.machine ⟨11⟩ = .expand filledCall ∧
      made.machine.heap.isEndless ⟨11⟩ = true :=
  ⟨after (expandOnce (runMacro 20) fillCall ⟨ringing, .empty⟩), by with_unfolding_all rfl,
    by with_unfolding_all rfl, by with_unfolding_all rfl⟩

/-- The macro that makes a list without an end comes to its own end. What it makes is called
    then, which asks for the items of the list. -/
theorem ring_never_ends :
    (∀ depth call w, Meets 0 maxMacroDepth ⟨4⟩ ⟨ringing, .empty⟩ depth call w →
      call.Stops w.machine) ∧
    ∀ fuel, ¬ Terminates (compileToplevel fuel 0 ⟨4⟩ ringing) := by
  have outline : Outline.ofForm 0 ringing ⟨4⟩ = .expand ringCall := by with_unfolding_all rfl
  obtain ⟨rung, done, endless⟩ := ring_makes
  constructor
  · intro depth call w meets
    rcases meets.of_expand outline with ⟨rfl, rfl⟩ | ⟨_, _, fuel, expansion, w₁, made, meets⟩
    · exact stops_of_ok done
    · obtain ⟨rfl, rfl⟩ := expandOnce_unique ringing_ready made done
      obtain ⟨part, w₂, leads, _⟩ := meets.of_leads (by rw [endless]; rintro _ ⟨⟩)
      rw [endless] at leads
      exact leads.elim
  · intro fuel
    rw [compileToplevel_eq_finished, terminates_finished_iff]
    have met : Meets 0 maxMacroDepth ⟨4⟩ ⟨ringing, .empty⟩ 0 ringCall ⟨ringing, .empty⟩ :=
      meets_of_expand outline
    refine (compileToplevel_isWalk ringing_ready 0 ⟨4⟩).not_ends 8 met fun more large => ?_
    exact emitExpansion_endless ringing_ready done endless large _

theorem fill_stops {depth : Nat} {call : MacroCall} {w : Workbench}
    (meets : Meets 0 maxMacroDepth ⟨8⟩ ⟨ringing, .empty⟩ depth call w) :
    call.Stops w.machine ∧ call.MakesWhole w.machine := by
  have outline : Outline.ofForm 0 ringing ⟨8⟩ = .expand fillCall := by with_unfolding_all rfl
  obtain ⟨made, done, _, _⟩ := fill_makes
  rcases meets.of_expand outline with ⟨rfl, rfl⟩ | ⟨_, _, fuel, expansion, w₁, made', meets⟩
  · constructor
    · exact stops_of_ok done
    · intro args fuel value m' listed ran
      obtain ⟨w₁, same⟩ : ∃ w₁,
          expandOnce (runMacro fuel) fillCall ⟨ringing, .empty⟩ = .ok value w₁ := by
        rw [expandOnce_apply]
        simp only [itemsOf, listed, ran, expanded]
        exact ⟨_, rfl⟩
      obtain ⟨rfl, _⟩ := expandOnce_unique ringing_ready same done
      exact Heap.whole_null m'.heap
  · obtain ⟨rfl, rfl⟩ := expandOnce_unique ringing_ready made' done
    obtain ⟨part, w₂, leads, _⟩ := meets.of_leads (by rintro _ ⟨⟩)
    exact leads.elim

/-- The empty list that the macro makes is compiled, and leaves the argument a macro call. -/
theorem fill_yields : ∃ filled : Workbench,
    Yields 0 maxMacroDepth ⟨8⟩ ⟨ringing, .empty⟩ (.ok () filled) ∧
      Outline.ofForm 0 filled.machine ⟨11⟩ = .expand filledCall ∧
      filled.machine.heap.isEndless ⟨11⟩ = true := by
  have outline : Outline.ofForm 0 ringing ⟨8⟩ = .expand fillCall := by with_unfolding_all rfl
  obtain ⟨made, done, argument, endless⟩ := fill_makes
  have empty : Yields 0 63 .null made
      (.ok () ⟨made.machine, made.draft.write (Opcode.pushNull.encode [])⟩) :=
    yields_of_comes ⟨0, fun _ _ _ _ => rfl⟩ (terminates_ok _ _)
  exact ⟨_, yields_of_expandOnce ringing_ready outline done empty, argument, endless⟩

/-- The head of the call makes a whole value. It fills the argument, which is a free cell until
    then, and so the argument becomes a macro call on a list without an end. -/
theorem fill_never_ends :
    (∀ depth call w, Meets 0 maxMacroDepth ⟨9⟩ ⟨ringing, .empty⟩ depth call w →
      call.Stops w.machine ∧ call.MakesWhole w.machine) ∧
    ∀ fuel, ¬ Terminates (compileToplevel fuel 0 ⟨9⟩ ringing) := by
  have outline : Outline.ofForm 0 ringing ⟨9⟩ =
      .part ⟨8⟩ (.part ⟨11⟩ (.operand .call 1 .done)) := by with_unfolding_all rfl
  obtain ⟨filled, yields, argument, endless⟩ := fill_yields
  constructor
  · intro depth call w meets
    obtain ⟨part, w₁, leads, meets⟩ := meets.of_leads (by rw [outline]; rintro _ ⟨⟩)
    rw [outline] at leads
    rcases leads with ⟨rfl, rfl⟩ | ⟨w₂, yields', ⟨rfl, rfl⟩ | ⟨_, _, none_⟩⟩
    · exact fill_stops meets
    · cases yields.unique ringing_ready yields'
      exact stops_of_endless argument endless meets
    · exact none_.elim
  · intro fuel
    rw [compileToplevel_eq_finished, terminates_finished_iff]
    have leads : (Outline.ofForm 0 ringing ⟨9⟩).Leads 0 maxMacroDepth ⟨ringing, .empty⟩ ⟨11⟩ filled := by
      rw [outline]
      exact .inr ⟨filled, yields, .inl ⟨rfl, rfl⟩⟩
    have met : Meets 0 maxMacroDepth ⟨9⟩ ⟨ringing, .empty⟩ 0 filledCall filled :=
      .part leads (meets_of_expand argument)
    refine (compileToplevel_isWalk ringing_ready 0 ⟨9⟩).not_ends 0 met fun more _ => ?_
    exact emitExpansion_outOfFuel (not_terminates_of_endless endless more) 0 _

/-- Whether compiling the value of a variable, after a text in a fresh machine with the probes,
    fails in a macro and leaves another variable bound that had no value before. -/
def bindsOnFailure (source name other : String) : Bool :=
  match boot { arenaSize := 64 } none with
  | .error _ => false
  | .ok m =>
      match installNatives RuntimeError.ofHeap m.user (Probe.all.map .probe) m with
      | .error _ _ => false
      | .ok _ m =>
          match evalText 100 source m with
          | none => false
          | some (_, m) =>
              match m.value? m.user name with
              | none => false
              | some form =>
                  match compileToplevel 100 m.user form m with
                  | .error (.failed (.macroExpansion _ _)) m' =>
                      (m.value? m.user other).isNone && (m'.value? m.user other).isSome
                  | _ => false

/-- A form without a cycle, whose macros all come to their ends, is not compiled to the end where
    a macro makes a list without an end, or where a macro fills a free cell that the form refers
    to. And a macro that calls a native which is not built in can bind names and fail then. -/
theorem compilation_needs_whole_values :
    ringing.Ready ∧
    (ringing.heap.Acyclic ⟨4⟩ ∧
      (∀ depth call w, depth < maxMacroDepth →
        Meets 0 maxMacroDepth ⟨4⟩ ⟨ringing, .empty⟩ depth call w → call.Stops w.machine) ∧
      ∀ fuel, ¬ Terminates (compileToplevel fuel 0 ⟨4⟩ ringing)) ∧
    (ringing.heap.Acyclic ⟨9⟩ ∧
      (∀ depth call w, depth < maxMacroDepth →
        Meets 0 maxMacroDepth ⟨9⟩ ⟨ringing, .empty⟩ depth call w →
        call.Stops w.machine ∧ call.MakesWhole w.machine) ∧
      ∀ fuel, ¬ Terminates (compileToplevel fuel 0 ⟨9⟩ ringing)) ∧
    bindsOnFailure "(defmacro m () (%eval '(defvar x 1))) (defvar y '(m))" "y" "x" = true := by
  have acyclic : ∀ (form : Ref) (text : String),
      Printer.write ringing.heap ringing.registry 8 "" form = some text →
      ringing.heap.Acyclic form :=
    fun _ _ written => Heap.acyclic_of_bounded (Printer.within_of_write.1 written)
  obtain ⟨stops, never⟩ := ring_never_ends
  obtain ⟨stops', never'⟩ := fill_never_ends
  refine ⟨ringing_ready, ⟨acyclic ⟨4⟩ _ (by cbv), ?_, never⟩, ⟨acyclic ⟨9⟩ _ (by cbv), ?_, never'⟩, ?_⟩
  · exact fun depth call w _ meets => stops depth call w meets
  · exact fun depth call w _ meets => stops' depth call w meets
  · decide +kernel

end Machine

end LispMachine
