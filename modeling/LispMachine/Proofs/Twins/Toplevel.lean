import LispMachine.Proofs.Toplevel.Safety
import LispMachine.Proofs.Twins.Compile
import LispMachine.Proofs.Twins.Reader

/-!
# Top-level forms go together

Evaluating tied forms does the same on machines that are the same up to ties. A
collection gives up the ties of what it frees and keeps the ties of its roots, so a
form may find other garbage but no other program.
-/

namespace LispMachine

/-- A failure that tells of the size of the heap or of a limit of the stack of frames. -/
def EvalError.isLimit (sized : Bool) : EvalError → Bool
  | .read error => error.isLimit
  | .compile error => error.isLimit sized
  | .runtime error => error.isLimit sized

namespace Machine

/-! ## Modules -/

section

variable {ε α β : Type} {limit : ε → Prop} {base : Machine × Machine} {sized : Bool} {ties : Ties}

theorem onStore_frames (f : HeapError → ε) (action : EStateM HeapError Store α) (m : Machine) :
    m.SameFrames (after (onStore f action m)) := by
  unfold onStore
  dsimp only
  cases action m.store <;> exact ⟨rfl, rfl⟩

theorem still_onHeap {f : HeapError → ε} (limits : ∀ e, limit (f e))
    {result : Ties → α → β → Prop} {x : EStateM HeapError Heap α} {y : EStateM HeapError Heap β}
    (mirrors : Mirrors Heap.Twins (fun _ => True) ties result x y) :
    Mirrors (Still sized base) limit ties result (onHeap f x) (onHeap f y) :=
  still_of_mirrors (mirrors_onHeap limits mirrors) (fun m _ => onStore_frames f _ m)
    fun n _ => onStore_frames f _ n

theorem still_alloc {f : HeapError → ε} (limits : ∀ e, limit (f e)) {s t : Scalar}
    (same : s.Resembles (Tied ties) t) :
    Mirrors (Still sized base) limit ties Tied (onHeap f (Heap.allocScalar s))
      (onHeap f (Heap.allocScalar t)) :=
  still_onHeap limits (Heap.mirrors_alloc (.scalar same))

theorem still_intern {f : HeapError → ε} (limits : ∀ e, limit (f e)) (name : String) :
    Mirrors (Still sized base) limit ties Tied (intern f name) (intern f name) :=
  still_of_mirrors (mirrors_intern limits name) (fun m _ => onStore_frames f _ m)
    fun n _ => onStore_frames f _ n

theorem Still.withRegistry {m n : Machine} (still : m.Still sized base ties n) {r s : Registry}
    (same : r.Resembles (Tied ties) s) :
    { m with registry := r }.Still sized base ties { n with registry := s } where
  twins := ⟨still.twins.store, same, still.twins.top, still.twins.callers, still.twins.user,
    still.twins.truth, still.twins.output, still.twins.maxFrames⟩
  frames₁ := ⟨still.frames₁.top, still.frames₁.callers⟩
  frames₂ := ⟨still.frames₂.top, still.frames₂.callers⟩

theorem still_installNative {f : HeapError → ε} (limits : ∀ e, limit (f e)) (id : ModuleId)
    (builtin : Builtin) :
    Mirrors (Still sized base) limit ties (fun _ _ _ => True) (installNative f id (.builtin builtin))
      (installNative f id (.builtin builtin)) := by
  refine (still_intern limits _).bind fun ties₁ sub₁ name name' names => ?_
  refine (still_alloc limits (.builtin builtin)).bind fun ties₂ sub₂ cell cell' cells => ?_
  refine .modify fun ties₃ sub₃ m n still => still.withRegistry ?_
  exact still.twins.registry.bindFunction still.twins.heap id
    (names.mono (List.Subset.trans sub₂ sub₃)) (cells.mono sub₃)

theorem still_installNatives {f : HeapError → ε} (limits : ∀ e, limit (f e)) (id : ModuleId)
    (builtins : List Builtin) :
    Mirrors (Still sized base) limit ties (fun _ _ _ => True)
      (installNatives f id (builtins.map Native.builtin))
      (installNatives f id (builtins.map Native.builtin)) := by
  induction builtins generalizing ties with
  | nil => exact .unit
  | cons builtin rest ih => exact (still_installNative limits id builtin).bind fun _ _ _ _ _ => ih

theorem mirrors_create {r s : Registry} (same : r.Resembles (Tied ties) s) {name name' : Ref}
    (names : Tied ties name name') :
    Mirrors Heap.Twins (fun _ => True) ties
      (fun ties p q => p.1 = q.1 ∧ p.2.Resembles (Tied ties) q.2) (r.create name)
      (s.create name') := by
  unfold Registry.create
  rw [same.size]
  have cell := @Heap.mirrors_alloc ties _ _ (.scalar (Scalar.Resembles.moduleCell s.size))
  refine cell.bind fun ties₁ sub₁ cell cell' cells => Mirrors.look fun ties₂ sub₂ h k twins => ?_
  have sub := List.Subset.trans sub₁ sub₂
  have added := (same.mono sub).add twins (names.mono sub) (cells.mono sub₂)
  exact .pure fun _ more => ⟨rfl, added.mono more⟩

theorem still_createModule {f : HeapError → ε} (limits : ∀ e, limit (f e)) {name name' : Ref}
    (names : Tied ties name name') :
    Mirrors (Still sized base) limit ties (fun _ => Eq) (createModule f name) (createModule f name') := by
  refine Mirrors.get fun ties₁ sub₁ m n still => ?_
  have created := mirrors_create still.twins.registry (names.mono sub₁)
  refine (still_onHeap limits created).bind fun ties₂ sub₂ p q both => ?_
  rcases p with ⟨id, registry⟩
  rcases q with ⟨id', registry'⟩
  obtain ⟨ids, registries⟩ := both
  dsimp only at ids registries
  subst ids
  refine Mirrors.bind (.modify fun ties₃ sub₃ m n still => ?_) fun _ _ _ _ _ => .pure fun _ _ => rfl
  exact still.withRegistry (registries.mono sub₃)

theorem still_note (level level' : NoteLevel) (text text' : Machine → String) :
    Mirrors (Still sized base) limit ties (fun _ _ _ => True) (modify fun m => m.note level text)
      (modify fun m => m.note level' text') :=
  .modify fun _ _ _ _ still => still.note level level' text text'

theorem still_ensureModule {f : HeapError → ε} (limits : ∀ e, limit (f e)) {name name' : Ref}
    (names : Tied ties name name') :
    Mirrors (Still sized base) limit ties (fun _ => Eq) (ensureModule f name) (ensureModule f name') := by
  refine Mirrors.get fun ties₁ sub₁ m n still => ?_
  rw [still.twins.registry.find? still.twins.heap (names.mono sub₁)]
  split
  · exact .pure fun _ _ => rfl
  · refine (still_createModule limits (names.mono sub₁)).bind fun ties₂ sub₂ id id' same => ?_
    subst same
    refine (still_installNatives limits id _).bind fun ties₃ sub₃ _ _ _ => ?_
    refine Mirrors.bind (.modify fun ties₄ sub₄ m n still => ?_) fun ties₄ sub₄ _ _ _ => ?_
    · refine still.withRegistry ?_
      exact still.twins.registry.bindValue still.twins.heap id still.twins.truth still.twins.truth
    · exact (still_note _ _ _ _).bind fun _ _ _ _ _ => .pure fun _ _ => rfl

end

/-! ## Forms -/

/-- Both are the same evaluation up to ties, as long as no limit is reached. -/
abbrev Evaluated {α β : Type} (sized : Bool) (base : Machine × Machine) (ties : Ties)
    (result : Ties → α → β → Prop) (x : Action EvalError α) (y : Action EvalError β) : Prop :=
  Mirrors (Still sized base) (Stop.AtLimit (EvalError.isLimit sized)) ties result x y

section

variable {α β : Type} {base : Machine × Machine} {sized : Bool} {ties : Ties}

theorem evaluated_wrap {ε : Type} {isLimit : ε → Bool} {f : ε → EvalError}
    (limits : ∀ e, isLimit e = true → (f e).isLimit sized = true) {result : Ties → α → β → Prop}
    {x : Action ε α} {y : Action ε β}
    (mirrors : Mirrors (Still sized base) (Stop.AtLimit isLimit) ties result x y) :
    Evaluated sized base ties result (wrap f x) (wrap f y) := by
  have carried : ∀ stop : Stop ε, stop.AtLimit isLimit → (stop.map f).AtLimit (EvalError.isLimit sized) := by
    intro stop reached
    cases stop with
    | failed e => exact limits e reached
    | outOfFuel => exact trivial
  intro ties' sub m n still
  have both := mirrors ties' sub m n still
  unfold wrap
  generalize x m = first, y n = second at both
  cases both with
  | ok done => exact .ok done
  | error failed => exact .error failed
  | limit₁ reached failed => exact .limit₁ (carried _ reached) failed
  | limit₂ reached failed => exact .limit₂ (carried _ reached) failed

theorem evaluated_malformed {result : Ties → α → β → Prop} {form form' : Ref}
    (tied : Tied ties form form') :
    Evaluated sized base ties result (malformedDefinition form) (malformedDefinition form') := by
  intro ties' sub m n still
  unfold malformedDefinition
  rw [still.twins.display (tied.mono sub)]
  exact .error ⟨ties', List.Subset.refl _, still⟩

theorem evaluated_definitionParts {form form' : Ref} (tied : Tied ties form form') :
    Evaluated sized base ties (fun ties => List.Forall₂ (Tied ties)) (definitionParts form)
      (definitionParts form') := by
  intro ties' sub m n still
  have items := still.twins.heap.items? (tied.mono sub)
  unfold definitionParts
  generalize m.heap.items? form = first, n.heap.items? form' = second at items
  cases items with
  | none =>
      dsimp only
      rw [still.twins.heap.isEndless (tied.mono sub)]
      split
      · exact .error ⟨ties', List.Subset.refl _, still⟩
      · exact evaluated_malformed (tied.mono sub) ties' (List.Subset.refl _) m n still
  | some all => exact .ok ⟨ties', List.Subset.refl _, still, all⟩

theorem evaluated_expectName {name name' : Ref} (tied : Tied ties name name') (context : String) :
    Evaluated sized base ties (fun _ _ _ => True) (expectName name context) (expectName name' context) := by
  intro ties' sub m n still
  unfold expectName
  rw [still.twins.heap.isSymbol (tied.mono sub), still.twins.display (tied.mono sub)]
  split
  · exact .ok ⟨ties', List.Subset.refl _, still, trivial⟩
  · exact .error ⟨ties', List.Subset.refl _, still⟩

theorem limit_ofHeapEval (e : HeapError) :
    Stop.AtLimit (EvalError.isLimit sized) (EvalError.ofHeap e) := rfl

theorem evaluated_define (home : ModuleId) {name name' cell cell' : Ref}
    (names : Tied ties name name') (cells : Tied ties cell cell') :
    Evaluated sized base ties (fun _ _ _ => True) (modify (define home name cell))
      (modify (define home name' cell')) := by
  refine .modify fun ties' sub m n still => ?_
  obtain ⟨journal, eq⟩ := define_eq home name cell m
  obtain ⟨journal', eq'⟩ := define_eq home name' cell' n
  rw [eq, eq']
  have bound := still.twins.registry.bindFunction still.twins.heap home (names.mono sub)
    (cells.mono sub)
  have still' := still.withRegistry bound
  exact ⟨⟨still'.twins.store, still'.twins.registry, still'.twins.top, still'.twins.callers,
    still'.twins.user, still'.twins.truth, still'.twins.output, still'.twins.maxFrames⟩,
    ⟨still.frames₁.top, still.frames₁.callers⟩, ⟨still.frames₂.top, still.frames₂.callers⟩⟩

theorem evaluated_definition (host host' : Host) (fuel fuel' : Nat) {wrapCode : Code → Scalar}
    (wraps : ∀ (ties : Ties) (c d : Code), c.Resembles (Tied ties) d →
      (wrapCode c).Resembles (Tied ties) (wrapCode d))
    (home : ModuleId) {form form' : Ref} (tied : Tied ties form form') :
    Evaluated sized base ties Tied (evalDefinition host fuel wrapCode home form)
      (evalDefinition host' fuel' wrapCode home form') := by
  refine (evaluated_definitionParts tied).bind fun ties₁ sub₁ parts parts' all => ?_
  have tied₁ := tied.mono sub₁
  cases all with
  | nil => exact evaluated_malformed tied₁
  | cons head rest =>
      cases rest with
      | nil => exact evaluated_malformed tied₁
      | cons names rest =>
          cases rest with
          | nil => exact evaluated_malformed tied₁
          | cons params body =>
              refine (evaluated_expectName names _).bind fun ties₂ sub₂ _ _ _ => ?_
              have expands := @Compile.sameExpand_expandWith base sized host host' fuel fuel'
              have compiled := Compile.mirrored_function expands fuel fuel' home (names.mono sub₂)
                (params.mono sub₂) (forall₂_tied_mono body sub₂)
              refine Mirrors.bind (evaluated_wrap (fun _ limit => limit) compiled) ?_
              intro ties₃ sub₃ code code' same
              have wrapped := wraps ties₃ code code' same
              refine (still_alloc limit_ofHeapEval wrapped).bind fun ties₄ sub₄ cell cell' cells => ?_
              have names₄ := ((names.mono sub₂).mono sub₃).mono sub₄
              refine (evaluated_define home names₄ cells).bind fun ties₅ sub₅ _ _ _ => ?_
              exact .pure fun _ more => (names₄.mono sub₅).mono more

theorem evaluated_expression (host host' : Host) (fuel fuel' : Nat) (home : ModuleId)
    {form form' : Ref} (tied : Tied ties form form') :
    Evaluated sized base ties Tied (evalExpression host fuel home form)
      (evalExpression host' fuel' home form') := by
  have expands := @Compile.sameExpand_expandWith base sized host host' fuel fuel'
  have compiled := Compile.mirrored_toplevel expands fuel fuel' home tied
  refine Mirrors.bind (evaluated_wrap (fun _ limit => limit) compiled) ?_
  intro ties₁ sub₁ code code' same
  refine (still_alloc limit_ofHeapEval (.function same)).bind fun ties₂ sub₂ cell cell' cells => ?_
  refine evaluated_wrap (fun _ limit => limit) (still_of_mirrors
    (mirrored_applyWith host host' fuel fuel' cells .nil) ?_ ?_)
  · exact fun m ready => applyWith_frames host fuel cell [] ready
  · exact fun n ready => applyWith_frames host' fuel' cell' [] ready

theorem evaluated_defineVariable (home : ModuleId) {name name' value value' : Ref}
    (names : Tied ties name name') (values : Tied ties value value') :
    Evaluated sized base ties Tied (defineVariable home name value)
      (defineVariable home name' value') := by
  refine Mirrors.bind (.modify fun ties₁ sub₁ m n still => ?_) fun ties₁ sub₁ _ _ _ => ?_
  · exact still.withRegistry (still.twins.registry.bindValue still.twins.heap home
      (names.mono sub₁) (values.mono sub₁))
  · refine (still_note _ _ _ _).bind fun ties₂ sub₂ _ _ _ => ?_
    exact .pure fun _ more => ((names.mono sub₁).mono sub₂).mono more

theorem evaluated_variable (host host' : Host) (fuel fuel' : Nat) (home : ModuleId)
    {form form' : Ref} (tied : Tied ties form form') :
    Evaluated sized base ties Tied (evalVariable host fuel home form)
      (evalVariable host' fuel' home form') := by
  refine (evaluated_definitionParts tied).bind fun ties₁ sub₁ parts parts' all => ?_
  have tied₁ := tied.mono sub₁
  cases all with
  | nil => exact evaluated_malformed tied₁
  | cons head rest =>
      cases rest with
      | nil => exact evaluated_malformed tied₁
      | cons names rest =>
          cases rest with
          | nil =>
              refine (evaluated_expectName names _).bind fun ties₂ sub₂ _ _ _ => ?_
              exact evaluated_defineVariable home (names.mono sub₂) (.null ties₂)
          | cons value rest =>
              cases rest with
              | cons _ _ => exact evaluated_malformed tied₁
              | nil =>
                  refine (evaluated_expectName names _).bind fun ties₂ sub₂ _ _ _ => ?_
                  have evaluated := @evaluated_expression base sized ties₂ host host' fuel fuel' home _ _
                    (value.mono sub₂)
                  refine evaluated.bind fun ties₃ sub₃ _ _ values => ?_
                  exact evaluated_defineVariable home ((names.mono sub₂).mono sub₃) values

theorem evaluated_each {evalForm evalForm' : Ref → Action EvalError Ref}
    (forms : ∀ ties form form', Tied ties form form' →
      Evaluated sized base ties Tied (evalForm form) (evalForm' form'))
    {items items' : List Ref} (all : List.Forall₂ (Tied ties) items items') :
    Evaluated sized base ties (fun _ _ _ => True) (evalEach evalForm items) (evalEach evalForm' items') := by
  induction items generalizing ties items' with
  | nil =>
      cases all
      exact .unit
  | cons form rest ih =>
      cases all with
      | cons head tail =>
          exact (forms _ _ _ head).bind fun _ sub _ _ _ => ih (forall₂_tied_mono tail sub)

theorem evaluated_module {evalIn evalIn' : ModuleId → Ref → Action EvalError Ref}
    (forms : ∀ id ties form form', Tied ties form form' →
      Evaluated sized base ties Tied (evalIn id form) (evalIn' id form'))
    {form form' : Ref} (tied : Tied ties form form') :
    Evaluated sized base ties Tied (evalModule evalIn form) (evalModule evalIn' form') := by
  refine (evaluated_definitionParts tied).bind fun ties₁ sub₁ parts parts' all => ?_
  have tied₁ := tied.mono sub₁
  cases all with
  | nil => exact evaluated_malformed tied₁
  | cons head rest =>
      cases rest with
      | nil => exact evaluated_malformed tied₁
      | cons names body =>
          refine Mirrors.get fun ties₂ sub₂ m n still => ?_
          rw [still.twins.heap.isSymbol (names.mono sub₂)]
          split
          · refine (still_ensureModule limit_ofHeapEval (names.mono sub₂)).bind ?_
            intro ties₃ sub₃ id id' same
            subst same
            have body₃ := forall₂_tied_mono body (List.Subset.trans sub₂ sub₃)
            refine (evaluated_each (forms id) body₃).bind fun ties₄ sub₄ _ _ _ => ?_
            refine Mirrors.get fun ties₅ sub₅ m n still => ?_
            exact .pure fun _ more => (still.twins.registry.cellOf id).mono more
          · exact evaluated_malformed (tied₁.mono sub₂)

theorem Twins.headKeyword? {m n : Machine} (twins : m.Twins sized ties n) {form form' : Ref}
    (tied : Tied ties form form') : m.headKeyword? form = n.headKeyword? form' := by
  have pairs := twins.heap.pair? tied
  unfold Machine.headKeyword? Heap.car?
  generalize m.heap.pair? form = first, n.heap.pair? form' = second at pairs
  cases pairs with
  | none => rfl
  | some both => exact twins.heap.keyword? both.1

/-- The evaluations may have different amounts of fuel. -/
theorem evaluated_in (host host' : Host) (fuel fuel' : Nat) (home : ModuleId) {form form' : Ref}
    (tied : Tied ties form form') :
    Evaluated sized base ties Tied (evalIn host fuel home form) (evalIn host' fuel' home form') := by
  induction fuel generalizing ties fuel' home form form' with
  | zero => exact fun ties' _ _ _ still => .limit₁ trivial ⟨ties', List.Subset.refl _, still⟩
  | succ fuel ih =>
      cases fuel' with
      | zero => exact fun ties' _ _ _ still => .limit₂ trivial ⟨ties', List.Subset.refl _, still⟩
      | succ fuel' =>
          refine Mirrors.get fun ties₁ sub₁ m n still => ?_
          have tied₁ := tied.mono sub₁
          rw [still.twins.headKeyword? tied₁]
          split
          · exact evaluated_definition host host' fuel fuel' (fun _ _ _ => .function) home tied₁
          · exact evaluated_definition host host' fuel fuel' (fun _ _ _ => .expander) home tied₁
          · exact evaluated_variable host host' fuel fuel' home tied₁
          · exact evaluated_module (fun id _ _ _ tied => ih fuel' id tied) tied₁
          · exact evaluated_expression host host' fuel fuel' home tied₁

end

end Machine

end LispMachine
