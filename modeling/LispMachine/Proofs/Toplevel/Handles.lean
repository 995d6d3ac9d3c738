import LispMachine.Proofs.Twins.Intact

/-!
# Handles never dangle

Whatever is done with a machine between forms, all that it holds stays the empty list or
a cell in use, and a cell that stays reachable keeps its contents. Cells are freed only
where the roots say so: by a collection that is asked for, and by the one that may come
before a form.
-/

namespace LispMachine

/-! ## Reachable cells -/

namespace Heap

variable {h h' : Heap} {roots roots' : List Ref} {r : Ref}

/-- What is reachable stays so as long as the roots and the contents of cells stay. -/
theorem Reachable.keeps (reached : h.Reachable roots r) (kept : h.Keeps h') (sub : roots ⊆ roots') :
    h'.Reachable roots' r := by
  induction reached with
  | root member live => exact .root (sub member) (kept.live live)
  | child parent found refers live ih =>
      exact .child ih ((kept _ parent.live).trans found) refers (kept.live live)

/-- Sweeping leaves what is reachable as it is. -/
theorem Reachable.swept (reached : h.Reachable roots r) (sweeps : h.Sweeps roots h') :
    h'.cell? r = h.cell? r := by
  suffices live : h'.Live r from sweeps.kept r live
  induction reached with
  | root member live => exact sweeps.root _ member live
  | child parent found refers live ih =>
      exact sweeps.child _ _ ih found _ (Cell.mem_children.2 refers) live

end Heap

namespace Machine

variable {m m' : Machine} {r value form : Ref}

/-! ## Roots of a machine -/

theorem mem_roots_withTop {frame : Frame} :
    r ∈ (m.withTop frame).roots ↔
      (∃ caller ∈ m.callers.toList, r ∈ caller.roots) ∨ r ∈ frame.roots ∨ r ∈ m.store.roots ∨
        r ∈ m.registry.roots := by
  simp only [Machine.roots, frames, withTop, List.mem_append, List.mem_flatMap, List.mem_singleton,
    or_and_right, exists_or, exists_eq_left, or_assoc]

theorem roots_push (m : Machine) (value : Ref) : m.roots ⊆ (m.withTop (m.top.push value)).roots := by
  intro r member
  have split := (@mem_roots_withTop m r m.top).1 member
  refine mem_roots_withTop.2 (split.imp id (Or.imp ?_ id))
  intro inside
  simp only [Frame.roots, List.mem_append] at inside ⊢
  exact inside.imp (Or.imp (List.mem_cons_of_mem _) id) id

/-- All the handles that a machine holds: its roots and the names of the definitions that
    it has recorded. -/
def handles (m : Machine) : List Ref := m.roots ++ m.defined.toList.map Prod.snd

theorem mem_roots_of_get? {id : ModuleId} {module : Module} (found : m.registry.get? id = some module)
    (inside : r ∈ module.roots) : r ∈ m.roots :=
  mem_module_roots (List.mem_flatMap.2
    ⟨module, Array.mem_toList_iff.2 (Array.mem_of_getElem? found), inside⟩)

/-- Recorded names are bound, so they are among the roots. -/
theorem Orderly.handles (orderly : m.Orderly) : m.handles ⊆ m.roots := by
  intro r member
  rcases List.mem_append.1 member with root | recorded
  · exact root
  · obtain ⟨p, inside, rfl⟩ := List.mem_map.1 recorded
    have bound := orderly.defined p (Array.mem_toList_iff.1 inside)
    rw [Registry.function?_eq] at bound
    obtain ⟨function, known⟩ := Option.isSome_iff_exists.1 bound
    obtain ⟨module, found, bound⟩ := Option.bind_eq_some_iff.1 known
    have key := (Module.mem_bindingRoots (Assoc.mem_of_lookup bound)).1
    exact mem_roots_of_get? found (by simp [Module.roots, key])

theorem mem_roots_of_value? {id : ModuleId} {name : String} (bound : m.value? id name = some value) :
    value ∈ m.roots := by
  unfold Machine.value? at bound
  split at bound
  · unfold Registry.value? at bound
    split at bound
    · next module found =>
        have kept := (Module.mem_bindingRoots (Assoc.mem_of_lookup bound)).2
        exact mem_roots_of_get? found (by simp [Module.roots, kept])
    · cases bound
  · cases bound

/-! ## Machines at rest -/

/-- No call is under way, and all that the machine holds is sound. -/
structure Resting (m : Machine) : Prop where
  intact : m.Intact
  safe : m.Safe
  idle : m.callers = #[]

/-- The cell is reachable from the handles of the machine. -/
def Reaches (m : Machine) (r : Ref) : Prop := m.heap.Reachable m.handles r

theorem Resting.reachable (resting : m.Resting) (reached : m.Reaches r) : m.heap.Reachable m.roots r :=
  Heap.Reachable.keeps reached (.refl m.heap) resting.safe.handles

/-- The work stack at rest may be changed to hold other handles that do not dangle. -/
theorem Resting.modifyBottom (resting : m.Resting) {f : List Ref → List Ref}
    (held : ∀ r ∈ f m.top.stack, m.heap.Held r) : (m.modifyBottom f).Resting := by
  have safe := resting.safe.modifyBottom f
  rw [modifyBottom_idle resting.idle] at safe ⊢
  refine ⟨resting.intact.withTop fun r member => ?_, safe, resting.idle⟩
  simp only [Frame.roots, List.mem_append] at member
  have inside : m.top ∈ m.frames := by simp [frames]
  rcases member with (stack | locals) | code
  · exact held r stack
  · refine resting.intact.held r (mem_frame_roots inside (List.mem_append_left _ ?_))
    exact List.mem_append_right _ locals
  · exact resting.intact.held r (mem_frame_roots inside (List.mem_append_right _ code))

theorem Resting.push (resting : m.Resting) (held : m.heap.Held value) :
    (m.modifyBottom fun stack => value :: stack).Resting := by
  refine resting.modifyBottom fun r member => ?_
  rcases List.mem_cons.1 member with rfl | old
  · exact held
  · exact resting.intact.held r (mem_stack_roots old)

theorem Resting.drop (resting : m.Resting) (count : List Ref → Nat) :
    (m.modifyBottom fun stack => stack.drop (count stack)).Resting :=
  resting.modifyBottom fun r member =>
    resting.intact.held r (mem_stack_roots (List.mem_of_mem_drop member))

theorem Resting.boot {config : Config} {level : Option NoteLevel} (booted : boot config level = .ok m) :
    m.Resting := by
  obtain ⟨ties, twins, idle⟩ := boot_twins booted booted
  exact ⟨twins.intact, boot_safe booted, idle⟩

/-! ### Reading -/

theorem Resting.readForm (resting : m.Resting) (reader : Reader) :
    (readForm reader m).2.2.Resting ∧
      ∀ form, (readForm reader m).1 = .ok (some form) → (readForm reader m).2.2.heap.Held form := by
  have develops := readForm_develops reader resting.safe.toOrderly
  have both := readForm_twins resting.intact.twins reader
  generalize Machine.readForm reader m = result at both develops ⊢
  have safe := develops.safe resting.safe
  have rest : ∀ {ties : Ties} {n n' : Machine}, n.Still true (m, m) ties n' → n.Safe → n.Resting :=
    fun still safe => ⟨still.twins.intact, safe, still.frames₁.callers.trans resting.idle⟩
  have rest₂ : ∀ {ties : Ties} {n n' : Machine}, n.Still true (m, m) ties n' → n'.Safe → n'.Resting :=
    fun still safe => ⟨still.twins.intact₂, safe, still.frames₂.callers.trans resting.idle⟩
  cases both with
  | read reader' _ still related =>
      refine ⟨rest still safe, fun form found => ?_⟩
      cases found
      cases related with
      | some tied => exact still.twins.held tied
  | failed reader' _ still => exact ⟨rest still safe, nofun⟩
  | limit₁ _ still => exact ⟨rest still safe, nofun⟩
  | limit₂ _ still => exact ⟨rest₂ still safe, nofun⟩

/-- Reading frees nothing and gives up no root. -/
theorem Resting.readForm_keeps (resting : m.Resting) (reader : Reader) :
    m.heap.Keeps (Machine.readForm reader m).2.2.heap ∧
      m.roots ⊆ (Machine.readForm reader m).2.2.roots := by
  obtain ⟨s, changed, grows⟩ := readForm_grows reader resting.safe.store
  rw [changed]
  refine ⟨grows.kept, fun r member => ?_⟩
  simp only [Machine.roots, frames, List.mem_append] at member ⊢
  exact member.imp (Or.imp id (@grows.roots r)) id

/-! ### Forms -/

theorem Resting.evalFormWith (resting : m.Resting) (host : Host) (fuel : Nat)
    (held : m.heap.Held form) :
    (after (Machine.evalFormWith host fuel form m)).Resting ∧
      ∀ value m', Machine.evalFormWith host fuel form m = .ok value m' → m'.heap.Held value := by
  have safe := resting.safe.evalFormWith host fuel form
  have both := evalFormWith_twins host host fuel fuel resting.intact.twins resting.idle held.tied
  generalize Machine.evalFormWith host fuel form m = result at both safe ⊢
  cases both with
  | ok done =>
      obtain ⟨_, still, _, tied⟩ := done
      refine ⟨⟨still.twins.intact, safe, still.frames₁.callers.trans resting.idle⟩, ?_⟩
      rintro _ _ ⟨⟩
      exact still.twins.held tied
  | error failed =>
      obtain ⟨_, still, _⟩ := failed
      exact ⟨⟨still.twins.intact, safe, still.frames₁.callers.trans resting.idle⟩, by rintro _ _ ⟨⟩⟩
  | limit₁ _ failed =>
      obtain ⟨_, still, _⟩ := failed
      exact ⟨⟨still.twins.intact, safe, still.frames₁.callers.trans resting.idle⟩, by rintro _ _ ⟨⟩⟩
  | limit₂ _ failed =>
      obtain ⟨_, still, _⟩ := failed
      exact ⟨⟨still.twins.intact₂, safe, still.frames₂.callers.trans resting.idle⟩, by rintro _ _ ⟨⟩⟩

/-- The collection that may come before a form leaves what is reachable as it is. -/
theorem Resting.collectIfDue_keeps (resting : m.Resting) (form : Ref)
    (reached : m.heap.Reachable m.roots r) :
    (m.modifyBottom fun stack => form :: stack).collectIfDue.heap.cell? r = m.heap.cell? r := by
  rw [modifyBottom_push resting.idle]
  obtain ⟨heap, journal, eq, sweeps⟩ :=
    collectIfDue_eq (m.withTop (m.top.push form)) resting.intact.tidy
  have pushed := reached.keeps (.refl m.heap) (roots_push m form)
  have same := pushed.swept sweeps
  rw [eq]
  exact same

/-- What is reachable before a form keeps its contents: the evaluation frees nothing after the
    collection. -/
theorem Resting.evalFormWith_keeps (resting : m.Resting) (host : Host) (fuel : Nat) (form : Ref)
    (reached : m.heap.Reachable m.roots r) :
    (after (Machine.evalFormWith host fuel form m)).heap.cell? r = m.heap.cell? r := by
  have ran := (guarded_evalFormWith host fuel form resting.safe).develops.kept
  have same := resting.collectIfDue_keeps form reached
  refine (ran r ?_).trans same
  obtain ⟨cell, found, used⟩ := reached.live
  exact ⟨cell, same.trans found, used⟩

/-! ### Texts -/

/-- The states in which a machine rests while it evaluates the forms of a text: one before
    each form is read. -/
def restsOf (fuel : Nat) : Nat → Reader → Machine → List Machine
  | 0, _, m => [m]
  | count + 1, reader, m =>
      m :: match readForm reader m with
        | (.ok (some form), reader, m) =>
            match evalForm fuel form m with
            | .ok value m => restsOf fuel count reader (m.modifyBottom fun stack => value :: stack)
            | .error (.failed _) m => restsOf fuel count reader m
            | .error .outOfFuel _ => []
        | _ => []

theorem Resting.evalForms (resting : m.Resting) {fuel count : Nat} {reader : Reader}
    {results all : List FormResult}
    (done : Machine.evalForms fuel count reader results m = some (all, m')) :
    m'.Resting ∧ ∀ r, (∀ s ∈ restsOf fuel count reader m, s.Reaches r) →
      m'.heap.cell? r = m.heap.cell? r := by
  induction count generalizing reader results m with
  | zero =>
      cases done
      exact ⟨resting, fun _ _ => rfl⟩
  | succ count ih =>
      obtain ⟨rests₁, held⟩ := resting.readForm reader
      obtain ⟨kept, sub⟩ := resting.readForm_keeps reader
      unfold Machine.evalForms at done
      unfold restsOf
      rcases read : Machine.readForm reader m with ⟨outcome, reader₁, m₁⟩
      rw [read] at done rests₁ held kept sub
      rcases outcome with e | _ | form
      · cases done
        exact ⟨rests₁, fun r reached => kept r (reached m List.mem_cons_self).live⟩
      · cases done
        exact ⟨rests₁, fun r reached => kept r (reached m List.mem_cons_self).live⟩
      · dsimp only at done ⊢
        obtain ⟨rests₂, held₂⟩ := rests₁.evalFormWith (serve fuel) fuel (held form rfl)
        have same : ∀ r, m.Reaches r →
            (after (Machine.evalFormWith (serve fuel) fuel form m₁)).heap.cell? r = m.heap.cell? r := by
          intro r reached
          have later := (resting.reachable reached).keeps kept sub
          exact (rests₁.evalFormWith_keeps (serve fuel) fuel form later).trans (kept r reached.live)
        unfold evalForm at done ⊢
        cases ended : Machine.evalFormWith (serve fuel) fuel form m₁ with
        | ok value m₂ =>
            rw [ended] at done rests₂ same
            obtain ⟨rests', rest⟩ := ih (rests₂.push (held₂ value m₂ ended)) done
            refine ⟨rests', fun r reached => (rest r fun s member => ?_).trans ?_⟩
            · exact reached s (List.mem_cons_of_mem _ member)
            · rw [modifyBottom_idle rests₂.idle]
              exact same r (reached m List.mem_cons_self)
        | error e m₂ =>
            rw [ended] at done rests₂ same
            cases e with
            | outOfFuel => cases done
            | failed e =>
                obtain ⟨rests', rest⟩ := ih rests₂ done
                refine ⟨rests', fun r reached => (rest r fun s member => ?_).trans ?_⟩
                · exact reached s (List.mem_cons_of_mem _ member)
                · exact same r (reached m List.mem_cons_self)

theorem Resting.evalText (resting : m.Resting) {fuel : Nat} {source : String}
    {results : List FormResult} (done : Machine.evalText fuel source m = some (results, m')) :
    m'.Resting ∧ ∀ r, (∀ s ∈ restsOf fuel ((lex source).length + 1) (.ofSource source) m,
      s.Reaches r) → m'.heap.cell? r = m.heap.cell? r := by
  unfold Machine.evalText at done
  dsimp only at done
  split at done
  · cases done
  · next found m₁ ran =>
      cases done
      obtain ⟨rests₁, same⟩ := resting.evalForms ran
      refine ⟨rests₁.drop _, fun r reached => ?_⟩
      rw [modifyBottom_idle rests₁.idle]
      exact same r reached

/-! ### Names, modules, definitions and collections -/

theorem Resting.intern (resting : m.Resting) (name : String) :
    (after (intern id name m)).Resting ∧ m.heap.Keeps (after (Machine.intern id name m)).heap := by
  have develops := (@guarded_intern HeapError (fun _ => True) m id (fun _ => trivial)
    resting.safe.toOrderly name).develops
  obtain ⟨intact, frames⟩ := resting.intact.after
    (@still_intern HeapError (fun _ => True) _ true _ id (fun _ => trivial) name)
  exact ⟨⟨intact, develops.safe resting.safe, frames.callers.trans resting.idle⟩, develops.kept⟩

theorem Resting.ensureModule (resting : m.Resting) {name : Ref} (symbol : m.heap.isSymbol name = true) :
    (after (ensureModule id name m)).Resting ∧
      m.heap.Keeps (after (Machine.ensureModule id name m)).heap := by
  have develops := (@guarded_ensureModule HeapError (fun _ => True) m id (fun _ => trivial) name
    resting.safe.toOrderly symbol).develops
  obtain ⟨text, named⟩ := Heap.isSymbol_iff.1 symbol
  have held : m.heap.Held name := Or.inr ⟨_, named, rfl⟩
  obtain ⟨intact, frames⟩ := resting.intact.after
    (@still_ensureModule HeapError (fun _ => True) _ true _ id (fun _ => trivial) _ _ held.tied)
  exact ⟨⟨intact, develops.safe resting.safe, frames.callers.trans resting.idle⟩, develops.kept⟩

theorem Resting.takeDefinitions (resting : m.Resting) : m.takeDefinitions.2.Resting where
  intact := ⟨resting.intact.tidy, resting.intact.held, resting.intact.truth, resting.intact.named⟩
  safe := ⟨⟨resting.safe.store, resting.safe.modules, by simp [Machine.takeDefinitions]⟩,
    resting.safe.user⟩
  idle := resting.idle

theorem Resting.collectGarbage (resting : m.Resting) :
    m.collectGarbage.2.Resting ∧
      ∀ r, m.heap.Reachable m.roots r → m.collectGarbage.2.heap.cell? r = m.heap.cell? r := by
  have safe := resting.safe.collectGarbage
  obtain ⟨journal, collected⟩ := collectGarbage_eq m
  have sweeps := Heap.sweeps_collect resting.intact.tidy m.roots
  rw [collected] at safe ⊢
  refine ⟨⟨⟨sweeps.tidy, ?_, resting.intact.truth, resting.intact.named⟩, safe, resting.idle⟩, ?_⟩
  · intro r member
    exact (resting.intact.held r member).imp id (sweeps.root r member)
  · exact fun r reached => reached.swept sweeps

/-! ## Uses of a machine -/

/-- What may be done with a machine between forms, whether it succeeds or fails. The list
    holds the states in which the machine rests before the last one. -/
inductive Uses : Machine → List Machine → Machine → Prop where
  | readForm (m : Machine) (reader : Reader) : Uses m [m] (readForm reader m).2.2
  | evalForm {m : Machine} {fuel : Nat} {form : Ref} : m.heap.Held form →
      (∀ m', evalForm fuel form m ≠ .error .outOfFuel m') → Uses m [m] (after (evalForm fuel form m))
  | evalText {m m' : Machine} {fuel : Nat} {source : String} {results : List FormResult} :
      evalText fuel source m = some (results, m') →
      Uses m (restsOf fuel ((lex source).length + 1) (.ofSource source) m) m'
  | intern (m : Machine) (name : String) : Uses m [m] (after (intern id name m))
  | ensureModule {m : Machine} {name : Ref} : m.heap.isSymbol name = true →
      Uses m [m] (after (ensureModule id name m))
  | takeDefinitions (m : Machine) : Uses m [m] m.takeDefinitions.2
  | collectGarbage (m : Machine) : Uses m [m] m.collectGarbage.2

/-- Each use leaves a machine at rest, and a cell that is reachable in every state before
    the last keeps its contents. -/
theorem Uses.resting {rests : List Machine} (uses : m.Uses rests m') (resting : m.Resting) :
    m'.Resting ∧ ∀ r, (∀ s ∈ rests, s.Reaches r) → m'.heap.cell? r = m.heap.cell? r := by
  have alone : ∀ {m' : Machine},
      (∀ r, m.heap.Reachable m.roots r → m'.heap.cell? r = m.heap.cell? r) →
      ∀ r, (∀ s ∈ [m], s.Reaches r) → m'.heap.cell? r = m.heap.cell? r :=
    fun same r reached => same r (resting.reachable (reached m List.mem_cons_self))
  cases uses with
  | readForm reader =>
      obtain ⟨kept, _⟩ := resting.readForm_keeps reader
      exact ⟨(resting.readForm reader).1, alone fun r reached => kept r reached.live⟩
  | @evalForm fuel form held _ =>
      exact ⟨(resting.evalFormWith (serve fuel) fuel held).1,
        alone fun _ => resting.evalFormWith_keeps (serve fuel) fuel form⟩
  | evalText done => exact resting.evalText done
  | intern name =>
      obtain ⟨rests, kept⟩ := resting.intern name
      exact ⟨rests, alone fun r reached => kept r reached.live⟩
  | ensureModule symbol =>
      obtain ⟨rests, kept⟩ := resting.ensureModule symbol
      exact ⟨rests, alone fun r reached => kept r reached.live⟩
  | takeDefinitions => exact ⟨resting.takeDefinitions, alone fun _ _ => rfl⟩
  | collectGarbage => exact ⟨resting.collectGarbage.1, alone resting.collectGarbage.2⟩

/-- The states that a fresh machine reaches by any uses. -/
inductive InUse : Machine → Prop where
  | boot {config : Config} {level : Option NoteLevel} {m : Machine} :
      boot config level = .ok m → InUse m
  | use {m m' : Machine} {rests : List Machine} : InUse m → m.Uses rests m' → InUse m'

theorem InUse.resting (inUse : m.InUse) : m.Resting := by
  induction inUse with
  | boot booted => exact .boot booted
  | use _ uses ih => exact (uses.resting ih).1

/-- In every state that a fresh machine reaches, each handle that the machine holds and each
    child of a cell is the empty list or a cell in use, and each module is in its place. And
    a cell that stays reachable while the machine is used keeps its contents. -/
theorem handles_never_dangle (inUse : m.InUse) :
    (∀ r ∈ m.handles, m.heap.Held r) ∧
    (∀ r cell, m.heap.cell? r = some cell → ∀ child ∈ cell.children, m.heap.Held child) ∧
    (∀ id module, m.registry.get? id = some module →
      m.heap.cell? module.cell = some (.scalar (.moduleCell id)) ∧
        m.heap.isSymbol module.name = true) ∧
    ∀ rests m', m.Uses rests m' → ∀ r, (∀ s ∈ rests, s.Reaches r) →
      m'.heap.cell? r = m.heap.cell? r := by
  have resting := inUse.resting
  refine ⟨fun r member => resting.intact.held r (resting.safe.handles member),
    resting.intact.tidy.closed, fun id module found => ?_, fun rests m' uses r reached => ?_⟩
  · obtain ⟨cell, name⟩ := resting.safe.modules.placed id module found
    exact ⟨cell, name⟩
  · exact (uses.resting resting).2 r reached

/-- Whether a variable holds a pair after a text in a fresh machine. -/
def holdsPair (source name : String) : Bool :=
  match boot { arenaSize := 64 } none with
  | .error _ => false
  | .ok m =>
      match evalText 100 source m with
      | none => false
      | some (_, m) =>
          match m.value? m.user name with
          | none => false
          | some r => (m.heap.pair? r).isSome

theorem handles_never_dangle_sample :
    ∃ (m m' : Machine) (rests : List Machine) (r : Ref), m.InUse ∧ m.Uses rests m' ∧
      (∀ s ∈ rests, s.Reaches r) ∧ (m.heap.pair? r).isSome ∧ m'.heap.cell? r = m.heap.cell? r := by
  have holds : holdsPair "(defun f (x) x) (defvar x (cons 1 (f 2)))" "x" = true := by decide +kernel
  unfold holdsPair at holds
  split at holds
  · cases holds
  · next m booted =>
      split at holds
      · cases holds
      · next results m₁ ran =>
          split at holds
          · cases holds
          · next r bound =>
              have inUse : m₁.InUse := .use (.boot booted) (.evalText ran)
              have live : m₁.heap.Live r := by
                obtain ⟨halves, found⟩ := Option.isSome_iff_exists.1 holds
                exact ⟨_, Heap.pair?_eq_some.1 found, rfl⟩
              have reached : ∀ s ∈ [m₁], s.Reaches r := by
                intro s member
                rw [List.mem_singleton.1 member]
                exact .root (List.mem_append_left _ (mem_roots_of_value? bound)) live
              exact ⟨m₁, m₁.collectGarbage.2, [m₁], r, inUse, .collectGarbage m₁, reached, holds,
                (handles_never_dangle inUse).2.2.2 _ _ (.collectGarbage m₁) r reached⟩

end Machine

end LispMachine
