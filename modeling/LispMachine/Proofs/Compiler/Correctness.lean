import LispMachine.Proofs.Compiler.Expansion
import LispMachine.Proofs.Compiler.Simulation
import Mathlib

/-!
# Compiled code computes the value of its source

Applying a compiled function has the outcome of evaluating the tree of its body:
the same value or the same failure, the same heap, modules and output, and no end
exactly when the evaluation has none.
-/

namespace LispMachine

open Machine

/-! ## Arguments -/

section

variable {code : Code} {fixed : List Ref} {rest : Option Ref} {tree : Form} {args : List Ref}

/-- The arguments that arrive in the variables are one for each parameter. -/
theorem Code.Implements.gathered_length (impl : code.Implements fixed rest tree)
    (accepted : code.arity.accepts args.length = true) {h h' : Heap} {values : List Ref}
    (done : gathered code args h = .ok values h') :
    values.length = (fixed ++ rest.toList).length := by
  unfold gathered at done
  unfold Code.arity at accepted
  rw [impl.takesRest, impl.params] at accepted done
  cases rest with
  | none =>
      cases done
      have exactly_ : fixed.length = args.length := by simpa [Arity.accepts] using accepted
      simp [exactly_]
  | some name =>
      simp only [Option.isSome_some, if_true] at accepted done
      have enough : fixed.length ≤ args.length := by simpa [Arity.accepts] using accepted
      cases listed : Heap.list (args.drop fixed.length) h with
      | error e h₁ =>
          rw [listed] at done
          cases done
      | ok surplus h₁ =>
          rw [listed] at done
          cases done
          simp [Nat.min_eq_left enough]

theorem Code.Implements.receive_apply (impl : code.Implements fixed rest tree)
    (accepted : code.arity.accepts args.length = true) (m : Machine) :
    Form.receive fixed rest args m =
      match gathered code args m.heap with
      | .ok values heap => .ok ((fixed ++ rest.toList).zip values) (m.withHeap heap)
      | .error e heap => .error (.failed (.heap e)) (m.withHeap heap) := by
  unfold gathered
  unfold Code.arity at accepted
  rw [impl.takesRest, impl.params] at accepted ⊢
  cases rest with
  | none =>
      simp [Form.receive]
      rfl
  | some name =>
      simp only [Option.isSome_some, if_true] at accepted ⊢
      have enough : fixed.length ≤ args.length := by simpa [Arity.accepts] using accepted
      simp only [Form.receive, bind_apply, onHeap_apply]
      cases Heap.list (args.drop fixed.length) m.heap with
      | error e h₁ => rfl
      | ok surplus h₁ =>
          have split : (fixed ++ [name]).zip (args.take fixed.length ++ [surplus]) =
              fixed.zip args ++ [(name, surplus)] := by
            rw [List.zip_append (by simp [enough]), @List.zip_eq_zip_take_min _ _ fixed args,
              Nat.min_eq_left enough, List.take_length]
            rfl
          simp only [pure_apply, Option.toList_some, split]

/-- The variables with which code starts. -/
theorem variables_start (params values : List Ref) (code : Code)
    (length : values.length = params.length) :
    Variables params.zipIdx (params.zip values) params.length (variablesOf code values) where
  below := by
    intro entry member
    have bounds := (List.mem_zipIdx member).2.1
    omega
  bound := by
    have general : ∀ (params values : List Ref) (start : Nat) (locals : Array Ref),
        values.length = params.length →
        (∀ i, i < values.length → locals[start + i]? = values[i]?) →
        Matches locals (params.zipIdx start) (params.zip values) := by
      intro params
      induction params with
      | nil =>
          intro values start locals _ _
          exact .nil
      | cons param params ih =>
          intro values start locals length held
          cases values with
          | nil => cases length
          | cons value values =>
              refine .cons ⟨rfl, held 0 (by simp)⟩ (ih values (start + 1) locals (by simpa using length) ?_)
              intro i inside
              have at_ := held (i + 1) (by simpa using inside)
              rw [Nat.add_assoc, Nat.add_comm 1]
              simpa using at_
    refine general params values 0 _ length ?_
    intro i inside
    simp [variablesOf, Array.getElem?_append, inside]
  blank := by
    intro slot free inside
    have outside : ¬ slot < values.length := by omega
    simp only [variablesOf, Array.size_append, List.size_toArray, Array.size_replicate] at inside
    simp only [variablesOf, Array.getElem?_append, List.size_toArray, outside, if_false,
      Array.getElem?_replicate]
    rw [if_pos (by omega)]

end

/-! ## Outcomes -/

/-- What a finished computation shows: its value or failure, and the machine without
    frames and journal. Running out of fuel shows nothing. -/
def observed {α : Type} :
    EStateM.Result (Stop RuntimeError) Machine α → Option (Except RuntimeError α × Machine)
  | .ok value m => some (.ok value, m.bare)
  | .error (.failed error) m => some (.error error, m.bare)
  | .error .outOfFuel _ => none

namespace Machine

theorem Runs.run_short {host : Host} {floor count fuel : Nat} {m m' : Machine}
    (runs : Runs host floor count m m') (short : fuel ≤ count) :
    ∃ m'', Machine.run host floor fuel m = .error .outOfFuel m'' := by
  induction runs generalizing fuel with
  | refl m =>
      obtain rfl := Nat.le_zero.1 short
      exact ⟨m, rfl⟩
  | @step _ m _ _ deep done _ ih =>
      cases fuel with
      | zero => exact ⟨m, rfl⟩
      | succ fuel =>
          rw [Machine.run, if_pos deep, done]
          exact ih (by omega)

/-- The result of a call, once its run has ended. -/
def ended (base : Nat) :
    EStateM.Result (Stop RuntimeError) Machine Unit → EStateM.Result (Stop RuntimeError) Machine Ref
  | .error e m => .error e (m.truncate base)
  | .ok _ m =>
      match m.frameAt? base with
      | some ⟨value :: _, _, _, _⟩ => .ok value (m.truncate base)
      | _ => .error (.failed (.emptyReturn "apply")) (m.truncate base)

/-- A run that ends after some steps ends so with any greater fuel, and with less fuel
    it shows nothing. -/
theorem Runs.observed_ended {host : Host} {floor count base : Nat} {m m' : Machine}
    {result : EStateM.Result (Stop RuntimeError) Machine Unit}
    (runs : Runs host floor count m m') (last : ∀ fuel, Machine.run host floor (fuel + 1) m' = result)
    (fuel : Nat) :
    observed (ended base (Machine.run host floor fuel m)) =
      if count + 1 ≤ fuel then observed (ended base result) else none := by
  split
  · next long =>
      obtain ⟨more, rfl⟩ : ∃ more, fuel = more + 1 + count := ⟨fuel - (count + 1), by omega⟩
      rw [runs.run (more + 1), last]
  · obtain ⟨m'', out⟩ := runs.run_short (show fuel ≤ count by omega)
    rw [out]
    rfl

end Machine

/-- What a bounded computation shows, in step with another: the same once both have
    fuel enough, and nothing as long as the other shows nothing. -/
def Agrees {α : Type} (fuel : Nat) (first : Nat → EStateM.Result (Stop RuntimeError) Machine α)
    (second : EStateM.Result (Stop RuntimeError) Machine α) : Prop :=
  match observed second with
  | some outcome => ∃ least, ∀ k, observed (first k) = if least ≤ k then some outcome else none
  | none => observed (first fuel) = none

theorem agrees_failed {α : Type} {fuel : Nat} {error : RuntimeError} {m₁ m₂ : Machine}
    {first : Nat → EStateM.Result (Stop RuntimeError) Machine α}
    (fails : ∀ k, first k = .error (.failed error) m₁) (same : m₁.bare = m₂.bare) :
    Agrees fuel first (.error (.failed error) m₂) := by
  refine ⟨0, fun k => ?_⟩
  rw [fails, if_pos (Nat.zero_le k)]
  simp only [observed, same]

/-- The code of a body above a frame that waits for the result. -/
theorem Code.Implements.agrees {code : Code} {fixed : List Ref} {rest : Option Ref} {tree : Form}
    (impl : code.Implements fixed rest tree) (host : Host) (fuel : Nat) (home : ModuleId)
    {m : Machine} {values : List Ref} (ready : m.Ready)
    (known : tree.Named (code.Knows m.heap))
    (length : values.length = (fixed ++ rest.toList).length) :
    Agrees fuel
      (fun k => ended m.callers.size
        (run host m.depth k (m.withFrame (.ofCode code home (variablesOf code values)))))
      (tree.eval host fuel home ((fixed ++ rest.toList).zip values) (m.withFrame (.waiting home))) := by
  obtain ⟨pc, laid, returns, _⟩ := impl.laid
  have ready' := ready.of_bare (show m.bare = (m.withFrame (.waiting home)).bare from rfl)
  have beside : Beside home (m.withFrame (.waiting home))
      (m.withFrame (.ofCode code home (variablesOf code values))) := ⟨ready', rfl, rfl, rfl⟩
  have vars := variables_start _ values code length
  have room : code.slots ≤ (variablesOf code values).size := by
    simp only [variablesOf, Array.size_append, List.size_toArray, Array.size_replicate]
    omega
  have follows := @Lays.follows host fuel _ _ _ _ _ _ _ _ laid _ [] _ _ _ vars room beside rfl known
  have floor : (m.withFrame (.ofCode code home (variablesOf code values))).callers.size = m.depth := by
    simp [withFrame, depth]
  unfold Agrees
  cases result : tree.eval host fuel home ((fixed ++ rest.toList).zip values)
    (m.withFrame (.waiting home)) with
  | ok value e' =>
      rw [result] at follows
      cases follows with
      | @ok _ _ m' count runs bare callers _ _ arrived =>
          obtain ⟨locals, at_, _⟩ := arrived
          rw [floor] at runs
          have effect : m'.top.effect m' =
              .back ⟨[value], locals, .running code (pc + 1), home⟩ := by
            rw [at_, effect_of_fetch rfl returns]
            rfl
          obtain ⟨m'', stepped, bare', callers', top'⟩ := step_back host effect rfl callers
          have deep : m.depth < m'.depth := by
            have size : m'.callers.size = m.depth := by rw [callers, floor]
            rw [← size]
            exact Nat.lt_succ_self _
          have shallow : ¬ m.depth < m''.depth := by simp [depth, callers']
          have all := runs.trans (.step deep stepped (.refl _))
          refine ⟨count + (0 + 1) + 1, fun k => (all.observed_ended (fun _ => if_neg shallow) k).trans ?_⟩
          have back : m''.frameAt? m.callers.size = some (m.top.push value) := by
            simp [frameAt?, callers', top']
          simp only [ended, back, Frame.push, observed, ← truncate_bare, bare', bare]
  | error stop e' =>
      rw [result] at follows
      cases follows with
      | @failed error _ m₁ m' count runs deep fails bare frames =>
          rw [floor] at runs deep
          have last : ∀ fuel, run host m.depth (fuel + 1) m₁ = .error (.failed error) m' := by
            intro fuel
            rw [run, if_pos deep, fails]
          refine ⟨count + 1, fun k => (runs.observed_ended last k).trans ?_⟩
          simp only [ended, observed, ← truncate_bare, bare]
      | outOfFuel count long runs =>
          rw [floor] at runs
          obtain ⟨m'', out⟩ := runs.run_short long
          simp only [observed, out, ended]

theorem expandWith_eq (host : Host) (fuel : Nat) (code : Code) (args : List Ref) (m : Machine)
    (deep : ¬ m.config.maxFrames ≤ m.depth) :
    expandWith host fuel code args m =
      match callCode code args (m.withFrame (.waiting m.top.home)) with
      | .ok _ m₁ => ended m.depth (run host (m.depth + 1) fuel m₁)
      | .error e m₁ => .error e (m₁.truncate m.depth) := by
  simp only [expandWith, callOut, bind_apply, enter_apply, deep, if_false]
  cases callCode code args (m.withFrame (.waiting m.top.home)) with
  | error e m₁ => rfl
  | ok _ m₁ =>
      dsimp only
      cases run host (m.depth + 1) fuel m₁ <;> rfl

/-- Running code that implements a tree agrees with evaluating the tree. -/
theorem Code.Implements.expandWith_agrees {code : Code} {fixed : List Ref} {rest : Option Ref}
    {tree : Form} (impl : code.Implements fixed rest tree) {home : ModuleId} {m : Machine}
    (ready : m.Ready) (here : m.heap.scalar? code.home = some (.moduleCell home))
    (known : tree.Named (code.Knows m.heap)) {args : List Ref}
    (accepted : code.arity.accepts args.length = true) (host : Host) (fuel : Nat) :
    Agrees fuel (fun k => expandWith host k code args m)
      (tree.apply host fuel home fixed rest args m) := by
  by_cases full : m.config.maxFrames ≤ m.depth
  · simp only [Form.apply, bind_apply, get_apply, enter_apply, full, if_true]
    refine agrees_failed (fun k => ?_) (truncate_bare m m.depth).symm
    simp only [expandWith, callOut, bind_apply, enter_apply, full, if_true]
  · have extended := gathered_extends code args ready.wellFormed
    simp only [expandWith_eq host _ code args m full, callCode_apply, Form.apply, bind_apply,
      get_apply, enter_apply, full, if_false, impl.receive_apply accepted, codeEffect, accepted,
      if_true]
    rw [show (m.withFrame (.waiting m.top.home)).heap = m.heap from rfl]
    cases done : gathered code args m.heap with
    | error e heap => exact agrees_failed (fun _ => rfl) (truncate_bare _ m.depth).symm
    | ok values heap =>
        rw [done] at extended
        let waiting := (m.withFrame (.waiting m.top.home)).withHeap heap
        have readyW : waiting.Ready := ⟨extended.wellFormed ready.wellFormed,
          extended.onlyBuiltins ready.wellFormed ready.plain⟩
        have kept := (extended.keeps ready.wellFormed).2
        have home_eq : waiting.homeOf code = home := by
          have found := Heap.scalar?_eq_some.1 here
          have later : waiting.heap.scalar? code.home = some (.moduleCell home) :=
            Heap.scalar?_eq_some.2 ((kept _ ⟨_, found, rfl⟩).trans found)
          simp only [homeOf, later]
        have size : waiting.callers.size = m.depth := by simp [waiting, withFrame, withHeap, depth]
        have depth_eq : waiting.depth = m.depth + 1 := congrArg (· + 1) size
        by_cases full' : waiting.config.maxFrames ≤ waiting.depth
        · have full'' : (m.withFrame (.waiting m.top.home)).config.maxFrames ≤
            (m.withFrame (.waiting m.top.home)).depth := full'
          have full₃ : ((m.withFrame (.waiting m.top.home)).withHeap heap).config.maxFrames ≤
            ((m.withFrame (.waiting m.top.home)).withHeap heap).depth := full'
          simp only [full'', full₃, if_true]
          exact agrees_failed (fun _ => rfl) (truncate_bare _ m.depth).symm
        · have full'' : ¬ (m.withFrame (.waiting m.top.home)).config.maxFrames ≤
            (m.withFrame (.waiting m.top.home)).depth := full'
          have full₃ : ¬ ((m.withFrame (.waiting m.top.home)).withHeap heap).config.maxFrames ≤
            ((m.withFrame (.waiting m.top.home)).withHeap heap).depth := full'
          simp only [full'', full₃, if_false]
          have agrees := impl.agrees host fuel home readyW
            (known.mono fun _ known => known.later kept) (impl.gathered_length accepted done)
          rw [size, depth_eq] at agrees
          rw [show ((m.withFrame (.waiting m.top.home)).withHeap heap).homeOf code = home from home_eq]
          exact agrees

/-! ## Compiled functions -/

/-- Applying a function with the code has the outcome of evaluating the tree. This holds
    in every machine in which the cells that the code refers to are what they were when
    it was compiled, and for every argument list that the code accepts. -/
def Code.Computes (code : Code) (compiled : Machine) (home : ModuleId) (params : List Ref)
    (rest : Option Ref) (tree : Form) : Prop :=
  ∀ (host : Host) (m : Machine) (cell : Ref) (args : List Ref), m.Ready →
    m.heap.scalar? cell = some (.function code) →
    (∀ r ∈ code.children, m.heap.cell? r = compiled.heap.cell? r) →
    code.arity.accepts args.length = true →
    ∀ outcome, (∃ fuel, observed (applyWith host fuel cell args m) = some outcome) ↔
      ∃ fuel, observed (tree.apply host fuel home params rest args m) = some outcome

theorem applyWith_function (host : Host) (fuel : Nat) {cell : Ref} {code : Code} (args : List Ref)
    {m : Machine} (found : m.heap.scalar? cell = some (.function code)) :
    applyWith host fuel cell args m = expandWith host fuel code args m := by
  have called : invoke host cell args (m.withFrame (.waiting m.top.home)) =
      callCode code args (m.withFrame (.waiting m.top.home)) := by
    simp only [invoke, bind_apply, get_apply]
    rw [show (m.withFrame (.waiting m.top.home)).heap = m.heap from rfl, found]
  simp only [applyWith, expandWith, callOut, bind_apply, enter_apply]
  by_cases full : m.config.maxFrames ≤ m.depth
  · simp only [full, if_true]
  · simp only [full, if_false, called]

theorem Code.Implements.computes {code : Code} {fixed : List Ref} {rest : Option Ref}
    {tree : Form} (impl : code.Implements fixed rest tree) {home : ModuleId} {compiled : Machine}
    (here : compiled.heap.scalar? code.home = some (.moduleCell home))
    (known : tree.KnownTo compiled) : code.Computes compiled home fixed rest tree := by
  intro host m cell args ready found kept accepted outcome
  have here' : m.heap.scalar? code.home = some (.moduleCell home) := by
    rw [Heap.scalar?_eq_some] at here ⊢
    rw [kept _ (by simp [Code.children]), here]
  have known' : tree.Named (code.Knows m.heap) := by
    refine known.mono fun r symbol member => ?_
    rw [Heap.isSymbol_iff] at symbol ⊢
    rw [kept r (by simp [Code.children, member])]
    exact symbol
  simp only [applyWith_function host _ args found]
  have agrees := fun fuel => impl.expandWith_agrees ready here' known' accepted host fuel
  constructor
  · rintro ⟨fuel, shown⟩
    -- With the same fuel the evaluation shows an outcome too, or else the run would not.
    have both := agrees fuel
    unfold Agrees at both
    cases evaluated : observed (tree.apply host fuel home fixed rest args m) with
    | none =>
        rw [evaluated] at both
        rw [both] at shown
        cases shown
    | some other =>
        rw [evaluated] at both
        obtain ⟨least, all⟩ := both
        rw [all fuel] at shown
        split at shown
        · cases shown
          exact ⟨fuel, evaluated⟩
        · cases shown
  · rintro ⟨fuel, evaluated⟩
    have both := agrees fuel
    unfold Agrees at both
    rw [evaluated] at both
    obtain ⟨least, all⟩ := both
    exact ⟨least, by rw [all, if_pos (Nat.le_refl _)]⟩

/-- Compiled code computes what its source means. A function takes the parameters of its
    parameter list and computes the tree that its body expands to; an expression computes
    the tree that it expands to. -/
theorem compile_computes (host : Host) (fuel : Nat) (home : ModuleId) (m : Machine)
    (ready : m.Ready)
    (here : m.heap.scalar? (m.registry.cellOf home) = some (.moduleCell home)) :
    (∀ (name params : Ref) (body : List Ref) (code : Code) (m' : Machine),
      Compile.function (expandWith host fuel) fuel home name params body m = .ok code m' →
      ∃ items fixed rest tree, m.heap.items? params = some items ∧
        m.heap.parameters? items = some (fixed, rest) ∧
        ExpandsBody home (expandWith host fuel) m body tree m' ∧
        code.Computes m' home fixed rest tree) ∧
    (∀ (form : Ref) (code : Code) (m' : Machine),
      Compile.toplevel (expandWith host fuel) fuel home form m = .ok code m' →
      ∃ tree, Expands home (expandWith host fuel) m form tree m' ∧
        code.Computes m' home [] none tree) := by
  have steady := expandWith_steady host fuel
  have here' : ∀ m', m.Grows m' → m'.heap.scalar? (m'.registry.cellOf home) =
      some (.moduleCell home) := by
    intro m' grows
    have found := Heap.scalar?_eq_some.1 here
    rw [grows.registry]
    exact Heap.scalar?_eq_some.2 ((grows.keeps ready _ ⟨_, found, rfl⟩).trans found)
  constructor
  · intro name params body code m' done
    obtain ⟨items, fixed, rest, tree, listed, read, expands, impl, _, home_eq⟩ :=
      Compile.function_ok done
    obtain ⟨grows, known⟩ := expands.known steady ready
    refine ⟨items, fixed, rest, tree, listed, read, expands, impl.computes ?_ known⟩
    rw [home_eq]
    exact here' m' grows
  · intro form code m' done
    obtain ⟨tree, expands, impl, _, home_eq⟩ := Compile.toplevel_ok done
    obtain ⟨grows, known⟩ := expands.known steady ready
    refine ⟨tree, expands, impl.computes ?_ known⟩
    rw [home_eq]
    exact here' m' grows

/-- A heap with the parameter list `(x)` and the form `(let ((y x)) (if y 7 y))`. -/
def sampleHeap : Heap :=
  { Heap.ofArenaSize 1 with
    cells := (([.scalar (.symbol "user"), .scalar (.moduleCell 0), .scalar (.symbol "x"),
      .scalar (.symbol "y"), .scalar (.symbol "let"), .scalar (.symbol "if"),
      .scalar (.integer 7), .pair ⟨3⟩ .null, .pair ⟨4⟩ ⟨8⟩, .pair ⟨9⟩ .null, .pair ⟨4⟩ .null,
      .pair ⟨7⟩ ⟨11⟩, .pair ⟨4⟩ ⟨12⟩, .pair ⟨6⟩ ⟨13⟩, .pair ⟨14⟩ .null, .pair ⟨10⟩ ⟨15⟩,
      .pair ⟨5⟩ ⟨16⟩] : List Cell).map fun cell => ⟨cell, false⟩).toArray }

/-- A machine with that heap and one module. -/
def sampleMachine : Machine :=
  { blank default none with
    store := ⟨sampleHeap, []⟩
    registry := ⟨#[⟨⟨1⟩, ⟨2⟩, [], []⟩], []⟩ }

/-- A host that answers no request. -/
def silentHost : Host := fun _ => throw .outOfFuel

/-- The code of a function with that parameter list and that body. -/
def sampleCode : Code :=
  ⟨.null, 1, false, 2, #[⟨7⟩], #[2, 0, 3, 1, 2, 1, 7, 12, 1, 0, 6, 14, 2, 1, 9], ⟨2⟩⟩

theorem sampleMachine_ready : sampleMachine.Ready where
  wellFormed := by
    refine ⟨by decide, [], .nil, List.nodup_nil, fun slot => ⟨fun member => (by cases member), ?_⟩, rfl⟩
    rintro ⟨entry, found, free⟩
    have used : ∀ entry ∈ sampleHeap.cells.toList, entry.cell.isFree = false := by decide
    rw [used entry (Array.mem_toList_iff.2 (Array.mem_of_getElem? found))] at free
    cases free
  plain := by
    intro r probe found
    have others : ∀ entry ∈ sampleHeap.cells.toList, entry.cell.tag? ≠ some .native := by decide
    rcases r.null_or_ofSlot with rfl | ⟨slot, rfl⟩
    · cases found
    · have held := Heap.scalar?_eq_some.1 found
      rw [Heap.cell?_ofSlot, Option.map_eq_some_iff] at held
      obtain ⟨entry, there, cell⟩ := held
      refine others entry (Array.mem_toList_iff.2 (Array.mem_of_getElem? there)) ?_
      rw [cell]
      rfl

/-- The function is compiled, and it computes the tree of its body. -/
theorem sampleCode_computes :
    sampleMachine.Ready ∧ ∃ tree,
      ExpandsBody 0 (expandWith silentHost 8) sampleMachine [⟨17⟩] tree
        sampleMachine ∧
      sampleCode.Computes sampleMachine 0 [⟨3⟩] none tree := by
  have compiled : Compile.function (expandWith silentHost 8) 8 0 .null ⟨8⟩ [⟨17⟩]
      sampleMachine = .ok sampleCode sampleMachine := by cbv
  have here : sampleMachine.heap.scalar? (sampleMachine.registry.cellOf 0) =
      some (.moduleCell 0) := by cbv
  have listed : sampleMachine.heap.items? ⟨8⟩ = some [⟨3⟩] := by cbv
  have read : sampleMachine.heap.parameters? [⟨3⟩] = some ([⟨3⟩], none) := by cbv
  obtain ⟨items, fixed, rest, tree, listed', read', expands, computes⟩ :=
    (compile_computes silentHost 8 0 sampleMachine sampleMachine_ready here).1
      .null ⟨8⟩ [⟨17⟩] sampleCode sampleMachine compiled
  cases listed.symm.trans listed'
  cases read.symm.trans read'
  exact ⟨sampleMachine_ready, tree, expands, computes⟩

end LispMachine
