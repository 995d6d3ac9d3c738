import LispMachine.Proofs.Toplevel.Symbols

/-!
# The creation of modules

A new module is registered before it is filled: its natives and the true value join one by
one, and each of them may be the one for which the heap has no room. So a creation that
fails may leave a module with a part of the library, and the name of that module leads to it
from then on.
-/

namespace LispMachine

/-- No two library callables share a name. -/
theorem Builtin.name_inj {a b : Builtin} (same : a.name = b.name) : a = b := by
  revert same
  cases a <;> cases b <;> decide

namespace Registry

/-- The second registry has one module more, with this name; all others are the same. -/
structure Gains (r : Registry) (name : Ref) (r' : Registry) : Prop where
  size : r'.size = r.size + 1
  find? : ∀ other, r'.find? other = if name = other then some r.size else r.find? other
  get? : ∀ id, id < r.size → r'.get? id = r.get? id

section

variable {r r' : Registry} {name : Ref}

theorem gains_add (r : Registry) (name cell : Ref) : r.Gains name (r.add name cell) where
  size := size_add name cell
  find? other := Assoc.lookup_insert name other r.modules.size r.byName
  get? id known := by rw [get?_add, if_neg (Nat.ne_of_lt known)]

/-- The module that was gained may be changed. -/
theorem Gains.modify (gains : r.Gains name r') (f : Module → Module) :
    r.Gains name { r' with modules := r'.modules.modify r.size f } where
  size := by
    rw [← gains.size]
    exact Array.size_modify
  find? := gains.find?
  get? id known := by
    rw [get?_modify, if_neg (Nat.ne_of_gt known)]
    exact gains.get? id known

theorem value?_eq (id : ModuleId) (symbol : Ref) :
    r.value? id symbol = (r.get? id).bind fun m => m.value? symbol := by
  unfold value?
  cases r.get? id <;> rfl

theorem value?_bindValue {id : ModuleId} (known : id < r.size) (symbol value : Ref) :
    (r.bindValue id symbol value).value? id symbol = some value := by
  rw [value?_eq, bindValue, get?_modify, if_pos rfl]
  cases held : get? ⟨r.modules, r.byName⟩ id with
  | none => exact absurd known (Nat.not_lt.2 (Array.getElem?_eq_none_iff.1 held))
  | some module => simp [Module.value?, Module.bindValue, Assoc.lookup_insert]

theorem value?_bindFunction (id other : ModuleId) (symbol name function : Ref) :
    (r.bindFunction id symbol function).value? other name = r.value? other name := by
  rw [value?_eq, value?_eq, bindFunction, get?_modify]
  split
  · cases r.get? other <;> rfl
  · rfl

end

end Registry

namespace Machine

/-! ## What a module holds -/

/-- The library callable is bound to its name in the module. -/
def Provides (m : Machine) (id : ModuleId) (builtin : Builtin) : Prop :=
  ∃ cell, m.function? id builtin.name = some cell ∧
    m.heap.scalar? cell = some (.native (.builtin builtin))

/-- The module has the whole library, and the true value is bound to itself. -/
structure IsComplete (m : Machine) (id : ModuleId) : Prop where
  library : ∀ builtin, m.Provides id builtin
  truth : m.registry.value? id m.truth = some m.truth

/-- The module has these library callables and no other binding. -/
structure HasOnly (m : Machine) (id : ModuleId) (library : List Builtin) : Prop where
  provides : ∀ builtin ∈ library, m.Provides id builtin
  only : ∀ symbol cell, m.registry.function? id symbol = some cell →
    ∃ builtin ∈ library, m.store.lookup builtin.name = some symbol
  bare : ∀ symbol, m.registry.value? id symbol = none

/-- The second machine comes from the first by adding cells and symbols. -/
structure AddsCells (m m' : Machine) : Prop where
  develops : m.Develops m'
  registry : m'.registry = m.registry
  truth : m'.truth = m.truth

section

variable {m m' : Machine} {id : ModuleId} {builtin : Builtin} {library : List Builtin}

theorem function?_eq_some {name : String} {cell : Ref} :
    m.function? id name = some cell ↔
      ∃ symbol, m.store.lookup name = some symbol ∧ m.registry.function? id symbol = some cell := by
  unfold Machine.function?
  cases m.store.lookup name <;> simp

theorem AddsCells.provides (adds : m.AddsCells m') (provides : m.Provides id builtin) :
    m'.Provides id builtin := by
  obtain ⟨cell, bound, held⟩ := provides
  obtain ⟨symbol, known, function⟩ := function?_eq_some.1 bound
  refine ⟨cell, function?_eq_some.2 ⟨symbol, ?_, ?_⟩, ?_⟩
  · exact adds.develops.names.store.known _ symbol known
  · rw [adds.registry]
    exact function
  · have found := Heap.scalar?_eq_some.1 held
    exact Heap.scalar?_eq_some.2 ((adds.develops.kept cell ⟨_, found, rfl⟩).trans found)

theorem AddsCells.hasOnly (adds : m.AddsCells m') (has : m.HasOnly id library) :
    m'.HasOnly id library where
  provides b member := adds.provides (has.provides b member)
  only symbol cell bound := by
    rw [adds.registry] at bound
    obtain ⟨b, member, known⟩ := has.only symbol cell bound
    exact ⟨b, member, adds.develops.names.store.known _ symbol known⟩
  bare symbol := by
    rw [adds.registry]
    exact has.bare symbol

/-! ## Installing the library -/

/-- A store operation leaves all but the store alone. -/
theorem after_onStore {ε ε' α : Type} (f : ε → ε') (action : EStateM ε Store α) (m : Machine) :
    after (onStore f action m) = { m with store := after (action m.store) } := by
  unfold onStore
  dsimp only
  cases action m.store <;> rfl

variable {ε : Type} (f : HeapError → ε)

theorem addsCells_intern (orderly : m.Orderly) (name : String) :
    m.AddsCells (after (intern f name m)) := by
  refine ⟨(@guarded_intern ε (fun _ => True) m f (fun _ => trivial) orderly name).develops, ?_, ?_⟩ <;>
    rw [intern, after_onStore]

theorem addsCells_native (orderly : m.Orderly) (b : Builtin) :
    m.AddsCells (after (onHeap f (Heap.allocScalar (.native (.builtin b))) m)) := by
  have joins : (Cell.scalar (.native (.builtin b))).Joins m.heap :=
    Cell.joins_scalar (by simp) (by simp [Scalar.code?])
  have made := @guarded_alloc ε (fun _ => True) m f (fun _ => trivial) _ orderly joins rfl
  refine ⟨made.develops, ?_, ?_⟩ <;> rw [onHeap, after_onStore]

theorem intern_lookup {name : String} {symbol : Ref} (done : intern f name m = .ok symbol m') :
    m'.store.lookup name = some symbol := by
  unfold intern onStore at done
  dsimp only at done
  rw [Store.intern_apply] at done
  cases known : m.store.lookup name with
  | some cell =>
      rw [known] at done
      cases done
      exact known
  | none =>
      rw [known] at done
      dsimp only at done
      cases made : Heap.alloc (.scalar (.symbol name)) m.store.heap with
      | ok cell heap =>
          rw [made] at done
          cases done
          exact (Assoc.lookup_insert ..).trans (if_pos rfl)
      | error e heap =>
          rw [made] at done
          cases done

/-- The native joins those that are there: no two of them share a name, so none is lost. -/
theorem HasOnly.bindFunction (has : m.HasOnly id library) (sound : m.store.Sound)
    (known : id < m.registry.size) {symbol cell : Ref}
    (named : m.store.lookup builtin.name = some symbol)
    (held : m.heap.scalar? cell = some (.native (.builtin builtin))) :
    (m.bindFunction id symbol cell).HasOnly id (library ++ [builtin]) where
  provides := by
    intro b member
    by_cases same : b = builtin
    · subst same
      refine ⟨cell, function?_eq_some.2 ⟨symbol, named, ?_⟩, held⟩
      simp [Machine.bindFunction, Registry.function?_bindFunction, known]
    · have inside : b ∈ library := by simpa [same] using member
      obtain ⟨old, bound, held'⟩ := has.provides b inside
      obtain ⟨symbol', named', function⟩ := function?_eq_some.1 bound
      have different : symbol ≠ symbol' := by
        rintro rfl
        exact same (Builtin.name_inj (sound.lookup_inj named' named))
      refine ⟨old, function?_eq_some.2 ⟨symbol', named', ?_⟩, held'⟩
      simp [Machine.bindFunction, Registry.function?_bindFunction, different, function]
  only := by
    intro other found bound
    rw [Machine.bindFunction, Registry.function?_bindFunction] at bound
    split at bound
    · next same => exact ⟨builtin, by simp, by rw [← same.2.1]; exact named⟩
    · obtain ⟨b, member, known⟩ := has.only other found bound
      exact ⟨b, List.mem_append_left _ member, known⟩
  bare other := by
    rw [Machine.bindFunction, Registry.value?_bindFunction]
    exact has.bare other

/-- Another callable is not there. -/
theorem HasOnly.not_provides (has : m.HasOnly id library) (sound : m.store.Sound)
    (missing : builtin ∉ library) : ¬ m.Provides id builtin := by
  rintro ⟨cell, bound, _⟩
  obtain ⟨symbol, known, function⟩ := function?_eq_some.1 bound
  obtain ⟨b, member, known'⟩ := has.only symbol cell function
  apply missing
  rwa [Builtin.name_inj (sound.lookup_inj known known')]

/-- A module on its way to the library of all: it is the last of the registry, and the rest of
    the registry is the old one. -/
structure Filling (start : Machine) (name : Ref) (done : List Builtin) (m : Machine) : Prop where
  orderly : m.Orderly
  gains : start.registry.Gains name m.registry
  has : m.HasOnly start.registry.size done
  truth : m.truth = start.truth

variable {start : Machine} {name : Ref} {done : List Builtin}

theorem Filling.addsCells (filling : Filling start name done m) (adds : m.AddsCells m') :
    Filling start name done m' where
  orderly := adds.develops.orderly
  gains := by
    rw [adds.registry]
    exact filling.gains
  has := adds.hasOnly filling.has
  truth := adds.truth.trans filling.truth

theorem Filling.known (filling : Filling start name done m) :
    start.registry.size < m.registry.size := by
  rw [filling.gains.size]
  exact Nat.lt_succ_self _

/-- One more native is installed, or the module stays as it is for want of a cell. -/
theorem Filling.installNative (filling : Filling start name done m) (b : Builtin) :
    (∃ m', Machine.installNative f start.registry.size (.builtin b) m = .ok () m' ∧
      Filling start name (done ++ [b]) m') ∨
    ∃ e m', Machine.installNative f start.registry.size (.builtin b) m = .error e m' ∧
      Filling start name done m' := by
  unfold Machine.installNative
  rw [bind_apply]
  have interned := addsCells_intern f filling.orderly (Native.builtin b).name
  cases first : intern f (Native.builtin b).name m with
  | error e m₁ =>
      rw [first, after_error] at interned
      exact Or.inr ⟨e, m₁, rfl, filling.addsCells interned⟩
  | ok symbol m₁ =>
      rw [first, after_ok] at interned
      have filling₁ := filling.addsCells interned
      have made := addsCells_native f filling₁.orderly b
      dsimp only
      rw [bind_apply]
      cases second : onHeap f (Heap.allocScalar (.native (.builtin b))) m₁ with
      | error e m₂ =>
          rw [second, after_error] at made
          exact Or.inr ⟨e, m₂, rfl, filling₁.addsCells made⟩
      | ok cell m₂ =>
          rw [second, after_ok] at made
          have filling₂ := filling₁.addsCells made
          have named : m₂.store.lookup b.name = some symbol :=
            made.develops.names.store.known _ symbol (intern_lookup f first)
          have held : m₂.heap.scalar? cell = some (.native (.builtin b)) := by
            rw [onHeap_apply] at second
            rcases @Heap.alloc_cases m₁.heap (.scalar (.native (.builtin b)))
              filling₁.orderly.heap.wellFormed rfl with ⟨r, h, placed, allocated⟩ | ⟨failed, _⟩
            · rw [Heap.allocScalar, placed] at second
              cases second
              exact Heap.scalar?_eq_some.2 allocated.found
            · rw [Heap.allocScalar, failed] at second
              cases second
          refine Or.inl ⟨_, rfl, ?_⟩
          exact ⟨(filling₂.orderly.bindFunction _ symbol cell).orderly, filling₂.gains.modify _,
            filling₂.has.bindFunction filling₂.orderly.store filling₂.known named held, filling₂.truth⟩

/-- The natives are installed up to the first for which a cell is wanting. -/
theorem Filling.installNatives (filling : Filling start name done m) (rest : List Builtin) :
    (∃ m', Machine.installNatives f start.registry.size (rest.map Native.builtin) m = .ok () m' ∧
      Filling start name (done ++ rest) m') ∨
    ∃ e m' before after, Machine.installNatives f start.registry.size (rest.map Native.builtin) m =
      .error e m' ∧ rest = before ++ after ∧ after ≠ [] ∧ Filling start name (done ++ before) m' := by
  induction rest generalizing done m with
  | nil => exact Or.inl ⟨m, rfl, by rwa [List.append_nil]⟩
  | cons b rest ih =>
      rw [List.map_cons, Machine.installNatives, bind_apply]
      rcases filling.installNative f b with ⟨m₁, installed, filling₁⟩ | ⟨e, m₁, failed, filling₁⟩
      · rw [installed]
        have shift : ∀ more, (done ++ [b]) ++ more = done ++ b :: more := fun more => by simp
        rcases ih filling₁ with ⟨m₂, all, filling₂⟩ | ⟨e, m₂, before, after, some, eq, left, filling₂⟩
        · rw [shift] at filling₂
          exact Or.inl ⟨m₂, all, filling₂⟩
        · rw [shift] at filling₂
          exact Or.inr ⟨e, m₂, b :: before, after, some, by rw [eq, List.cons_append], left, filling₂⟩
      · rw [failed]
        exact Or.inr ⟨e, m₁, [], b :: rest, rfl, rfl, List.cons_ne_nil _ _,
          by rwa [List.append_nil]⟩

/-! ## Creating a module -/

theorem filling_create (orderly : m.Orderly) (symbol : m.heap.isSymbol name = true) {cell : Ref}
    {h : Heap} (allocated : m.heap.Allocated (.scalar (.moduleCell m.registry.size)) cell h) :
    Filling m name [] { m.withHeap h with registry := m.registry.add name cell } where
  orderly := (orderly.create symbol allocated).orderly
  gains := Registry.gains_add m.registry name cell
  has := by
    have held : (m.registry.add name cell).get? m.registry.size = some ⟨name, cell, [], []⟩ := by
      rw [Registry.get?_add, if_pos rfl]
    refine ⟨by simp, fun other found bound => ?_, fun other => ?_⟩
    · rw [Registry.function?_eq, held] at bound
      cases bound
    · rw [Registry.value?_eq, held]
      rfl
  truth := rfl

theorem Filling.complete (filling : Filling start name Builtin.all m) :
    (m.bindValue start.registry.size m.truth m.truth).IsComplete start.registry.size where
  library := by
    intro b
    have member : b ∈ Builtin.all := by cases b <;> decide
    obtain ⟨cell, bound, held⟩ := filling.has.provides b member
    obtain ⟨symbol, known, function⟩ := function?_eq_some.1 bound
    refine ⟨cell, function?_eq_some.2 ⟨symbol, known, ?_⟩, held⟩
    rw [Machine.bindValue, Registry.function?_bindValue]
    exact function
  truth := Registry.value?_bindValue filling.known m.truth m.truth

/-- Completeness is a matter of the store, the modules and the true value. -/
theorem IsComplete.withJournal (complete : m.IsComplete id) (journal : Journal) :
    (m.withJournal journal).IsComplete id :=
  ⟨complete.library, complete.truth⟩

/-- What the creation of a module that is new comes to: the module is complete, or there is
    none, or it stays unfinished. -/
theorem ensureModule_new (orderly : m.Orderly) (symbol : m.heap.isSymbol name = true)
    (new : m.registry.find? name = none) :
    (∃ m', ensureModule f name m = .ok m.registry.size m' ∧ m.registry.Gains name m'.registry ∧
      m'.truth = m.truth ∧ m'.IsComplete m.registry.size) ∨
    ∃ e m', ensureModule f name m = .error e m' ∧ (m'.registry = m.registry ∨
      m.registry.Gains name m'.registry ∧ ∃ done rest, Builtin.all = done ++ rest ∧ rest ≠ [] ∧
        m'.HasOnly m.registry.size done) := by
  unfold ensureModule
  rw [bind_apply, get_apply]
  dsimp only
  rw [new]
  dsimp only
  rw [bind_apply, createModule_apply]
  rcases @Heap.alloc_cases m.heap (.scalar (.moduleCell m.registry.size)) orderly.heap.wellFormed rfl
    with ⟨cell, h, placed, allocated⟩ | ⟨failed, _⟩
  · rw [placed]
    dsimp only
    rw [bind_apply]
    have filling := filling_create orderly symbol allocated
    rcases filling.installNatives f Builtin.all with
      ⟨m₁, installed, filling₁⟩ | ⟨e, m₁, done, rest, failed, all, left, filling₁⟩
    · rw [installed]
      obtain ⟨journal, noted⟩ := note_eq (m₁.bindValue m.registry.size m₁.truth m₁.truth) .debug
        fun m => s!"created module {m.display name}"
      simp only [bind_apply, modify_apply, pure_apply, noted]
      exact Or.inl ⟨_, rfl, filling₁.gains.modify _, filling₁.truth, filling₁.complete.withJournal journal⟩
    · rw [failed]
      exact Or.inr ⟨e, m₁, rfl, Or.inr ⟨filling₁.gains, done, rest, all, left, filling₁.has⟩⟩
  · rw [failed]
    exact Or.inr ⟨_, _, rfl, Or.inl rfl⟩

end

/-- A module that is found is handed out as it is. -/
theorem ensureModule_found {ε : Type} (f : HeapError → ε) {m : Machine} {name : Ref} {id : ModuleId}
    (found : m.registry.find? name = some id) : ensureModule f name m = .ok id m := by
  unfold ensureModule
  rw [bind_apply, get_apply]
  dsimp only
  rw [found]
  rfl

/-- The creation of a module may stop halfway. In an orderly machine, as every machine in use
    is one, asking for the module of a symbol has one of these ends. It succeeds; then the
    name leads to the module, and the module was there and the machine is the same, or it is
    new, no other module has changed, and it has the whole library and the true value. Or it
    fails in a heap that is full; then the name was new, and either no module was created, or
    one that has a proper part of the library, in order, and no value. Such a module is the
    one that the name leads to from then on: asking for it again succeeds and does not fill
    it. -/
theorem creation_may_stop_halfway {ε : Type} (f : HeapError → ε) {m : Machine} {name : Ref}
    (orderly : m.Orderly) (symbol : m.heap.isSymbol name = true) :
    (∀ id m', ensureModule f name m = .ok id m' → m'.registry.find? name = some id ∧
      (m.registry.find? name = some id ∧ m' = m ∨
        m.registry.find? name = none ∧ id = m.registry.size ∧ m.registry.Gains name m'.registry ∧
          m'.truth = m.truth ∧ m'.IsComplete id)) ∧
    ∀ e m', ensureModule f name m = .error e m' → m.registry.find? name = none ∧ m'.heap.IsFull ∧
      (m'.registry = m.registry ∨ m.registry.Gains name m'.registry ∧
        (∃ done rest, Builtin.all = done ++ rest ∧ rest ≠ [] ∧ m'.HasOnly m.registry.size done) ∧
        ¬ m'.IsComplete m.registry.size ∧
        ∀ n : Machine, n.registry = m'.registry → ensureModule f name n = .ok m.registry.size n) := by
  cases known : m.registry.find? name with
  | some id =>
      have same := ensureModule_found f known
      refine ⟨fun id' m' done => ?_, fun e m' failed => ?_⟩
      · rw [same] at done
        cases done
        exact ⟨known, Or.inl ⟨rfl, rfl⟩⟩
      · rw [same] at failed
        cases failed
  | none =>
      rcases ensureModule_new f orderly symbol known with
        ⟨m₁, created, gains, truth, complete⟩ | ⟨e₁, m₁, stopped, left⟩
      · refine ⟨fun id' m' done => ?_, fun e m' failed => ?_⟩
        · rw [created] at done
          cases done
          refine ⟨?_, Or.inr ⟨rfl, rfl, gains, truth, complete⟩⟩
          rw [gains.find?, if_pos rfl]
        · rw [created] at failed
          cases failed
      · refine ⟨fun id' m' done => ?_, fun e m' failed => ?_⟩
        · rw [stopped] at done
          cases done
        · rw [stopped] at failed
          cases failed
          have exhausted := @drains_ensureModule ε (fun _ => True) f name m e₁ m₁ stopped trivial
          have develops := (@guarded_ensureModule ε (fun _ => True) m f (fun _ => trivial) name orderly
            symbol).develops
          rw [stopped, after_error] at develops
          have wf := develops.orderly.heap.wellFormed
          refine ⟨rfl, wf.isExhausted_iff.1 exhausted, left.imp id ?_⟩
          rintro ⟨gains, part⟩
          refine ⟨gains, part, fun complete => ?_, fun n same => ensureModule_found f ?_⟩
          · obtain ⟨_, _, _, _, has⟩ := part
            have bare := has.bare m₁.truth
            rw [complete.truth] at bare
            cases bare
          · rw [same, gains.find?, if_pos rfl]

/-- The number of modules before and after a name is interned and its module asked for, in a
    fresh machine. None if the module could be created. -/
def modulesAround (config : Config) (name : String) : Option (Nat × Nat) :=
  match boot config none with
  | .error _ => none
  | .ok m =>
      match intern id name m with
      | .error _ _ => none
      | .ok symbol m =>
          match ensureModule id symbol m with
          | .ok _ _ => none
          | .error _ m' => some (m.registry.size, m'.registry.size)

theorem modulesAround_eq {config : Config} {name : String} {before after : Nat}
    (around : modulesAround config name = some (before, after)) :
    ∃ m symbol e m', m.InUse ∧ m.heap.isSymbol symbol = true ∧
      ensureModule id symbol m = .error e m' ∧ m.registry.size = before ∧
      m'.registry.size = after := by
  unfold modulesAround at around
  split at around
  · cases around
  · next m booted =>
      split at around
      · cases around
      · next symbol m₁ interned =>
          split at around
          · cases around
          · next e m₂ failed =>
              cases around
              have uses : m.Uses [m] m₁ := by
                have used := Uses.intern m name
                rwa [interned] at used
              have inUse : m.InUse := .boot booted
              have named := intern_ok inUse.resting.safe.store interned
              exact ⟨m₁, symbol, e, m₂, .use inUse uses, Heap.isSymbol_iff.2
                ⟨name, Heap.symbol?_eq_some.1 named⟩, failed, rfl, rfl⟩

/-- A heap that has room for the cell of the module and a single native. -/
theorem modulesAround_small :
    modulesAround { arenaSize := 30, maxArenas := some 1 } "m" = some (1, 2) := by
  decide +kernel

theorem creation_may_stop_halfway_sample :
    ∃ (m : Machine) (name : Ref) (e : HeapError) (m' : Machine), m.Orderly ∧
      m.heap.isSymbol name = true ∧ ensureModule id name m = .error e m' ∧ m'.heap.IsFull ∧
      m.registry.Gains name m'.registry ∧ ¬ m'.IsComplete m.registry.size ∧
      ensureModule id name m' = .ok m.registry.size m' := by
  obtain ⟨m, name, e, m', inUse, symbol, failed, before, after⟩ :=
    modulesAround_eq modulesAround_small
  have orderly : m.Orderly := inUse.resting.safe.toOrderly
  obtain ⟨_, stopped⟩ := creation_may_stop_halfway id orderly symbol
  obtain ⟨_, full, same | ⟨gains, _, unfinished, again⟩⟩ := stopped e m' failed
  · rw [same, before] at after
    cases after
  · exact ⟨m, name, e, m', orderly, symbol, failed, full, gains, unfinished, again m' rfl⟩

/-- A module is not created as a whole or not at all: where the creation fails the modules need
    not be what they were, and a name may lead to a module without the library. -/
theorem creation_is_not_all_or_nothing :
    (¬ ∀ (m : Machine) (name : Ref), m.InUse → m.heap.isSymbol name = true →
      (∃ created m', ensureModule id name m = .ok created m' ∧
        m'.registry.find? name = some created ∧
        (m.registry.find? name = none → m'.IsComplete created)) ∨
      ∃ e m', ensureModule id name m = .error e m' ∧ m'.registry.size = m.registry.size ∧
        (∀ other, m'.registry.find? other = m.registry.find? other) ∧
        ∀ id symbol, m'.registry.function? id symbol = m.registry.function? id symbol ∧
          m'.registry.value? id symbol = m.registry.value? id symbol) ∧
    ¬ ∀ (m : Machine) (name : Ref) (id : ModuleId), m.InUse → m.registry.find? name = some id →
      ∀ builtin, m.Provides id builtin := by
  obtain ⟨m, name, e, m', inUse, symbol, failed, before, after⟩ :=
    modulesAround_eq modulesAround_small
  refine ⟨fun whole => ?_, fun complete => ?_⟩
  · rcases whole m name inUse symbol with ⟨_, _, created, _⟩ | ⟨e', m'', failed', size, _⟩
    · rw [failed] at created
      cases created
    · rw [failed] at failed'
      cases failed'
      rw [before, after] at size
      cases size
  · have used := Uses.ensureModule symbol
    rw [failed, after_error] at used
    have inUse' : m'.InUse := .use inUse used
    rcases ensureModule_new id inUse.resting.safe.toOrderly symbol (by
      cases known : m.registry.find? name with
      | none => rfl
      | some found =>
          rw [ensureModule_found id known] at failed
          cases failed) with ⟨_, created, _⟩ | ⟨_, _, failed', left⟩
    · rw [failed] at created
      cases created
    · rw [failed] at failed'
      cases failed'
      rcases left with same | ⟨gains, done, rest, all, left, has⟩
      · rw [same, before] at after
        cases after
      · obtain ⟨b, more, rfl⟩ := List.exists_cons_of_ne_nil left
        have missing : b ∉ done := by
          intro member
          have distinct : (done ++ b :: more).Nodup := all ▸ (by decide : Builtin.all.Nodup)
          exact (List.nodup_append.1 distinct).2.2 b member b List.mem_cons_self rfl
        have found : m'.registry.find? name = some m.registry.size := by
          rw [gains.find?, if_pos rfl]
        exact has.not_provides inUse'.resting.safe.store missing (complete m' name _ inUse' found b)

end Machine

end LispMachine
