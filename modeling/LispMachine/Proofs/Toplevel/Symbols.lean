import LispMachine.Proofs.Toplevel.Exhaustion

/-!
# A symbol is its name

The table of symbols leads from a name to its cell, and every symbol cell is in the table.
No use of a machine takes a name from its cell: the cells of the table are roots of every
collection, and a symbol is made only for a name that has none. So two symbol cells are
the same cell exactly when their names are equal.
-/

namespace LispMachine

/-! ## Stores -/

namespace Store

/-- Every symbol cell is the cell of its name. -/
def Listed (s : Store) : Prop :=
  ∀ cell name, s.heap.symbol? cell = some name → s.lookup name = some cell

section

variable {s s' : Store} {name : String} {cell : Ref}

theorem Listed.keeps (listed : s.Listed) (names : s.KeepsNames s') : s'.Listed := by
  intro cell name named
  rcases names.listed cell name named with before | found
  · exact names.known name cell (listed cell name before)
  · exact found

theorem Sound.lookup (sound : s.Sound) (found : s.lookup name = some cell) :
    s.heap.symbol? cell = some name :=
  sound.named _ (Assoc.mem_of_lookup found)

/-- A cell belongs to one name at most. -/
theorem Sound.lookup_inj (sound : s.Sound) {other : String} (found : s.lookup name = some cell)
    (found' : s.lookup other = some cell) : name = other :=
  Option.some.inj ((sound.lookup found).symm.trans (sound.lookup found'))

theorem Listed.symbol?_inj (listed : s.Listed) {cell' : Ref} (named : s.heap.symbol? cell = some name)
    (named' : s.heap.symbol? cell' = some name) : cell = cell' :=
  Option.some.inj ((listed cell name named).symm.trans (listed cell' name named'))

end

end Store

namespace Machine

/-! ## Interning -/

section

variable {ε : Type} (f : HeapError → ε) {m : Machine} {name : String}

/-- The cell of a known name is found and nothing is allocated. -/
theorem intern_known {cell : Ref} (known : m.store.lookup name = some cell) :
    intern f name m = .ok cell m := by
  unfold intern onStore
  dsimp only
  rw [Store.intern_apply, known]

/-- A name without a cell receives one, unless the heap is full; then the machine stays as it
    is. -/
theorem intern_unknown (wf : m.heap.WellFormed) (unknown : m.store.lookup name = none) :
    (m.heap.IsFull ∧ ∃ e, intern f name m = .error e m) ∨
      (¬ m.heap.IsFull ∧ ∃ cell m', intern f name m = .ok cell m' ∧
        m'.store.lookup name = some cell) := by
  have allocates := Heap.alloc_allocates wf (.scalar (.symbol name))
  unfold intern onStore
  dsimp only
  rw [Store.intern_apply, unknown]
  generalize Heap.alloc (.scalar (.symbol name)) m.store.heap = result at allocates
  cases allocates with
  | full full => exact Or.inl ⟨full, _, rfl⟩
  | takes room _ => exact Or.inr ⟨room, _, _, rfl, (Assoc.lookup_insert ..).trans (if_pos rfl)⟩

end

/-! ## Uses keep names -/

section

variable {m m' : Machine}

theorem keepsNames_of_thins {h : Heap} (thins : m.heap.Thins h) (journal : Journal) :
    m.KeepsNames ((m.withHeap h).withJournal journal) := by
  refine keepsNames_of_heap rfl ?_ rfl fun _ => rfl
  intro r s found _
  exact Heap.scalar?_eq_some.2 (thins.found (Heap.scalar?_eq_some.1 found) rfl)

theorem keepsNames_collectGarbage (m : Machine) : m.KeepsNames m.collectGarbage.2 := by
  obtain ⟨journal, collected⟩ := collectGarbage_eq m
  rw [collected]
  exact keepsNames_of_thins (Heap.thins_collect m.heap m.roots) journal

theorem keepsNames_collectIfDue (m : Machine) : m.KeepsNames m.collectIfDue := by
  unfold collectIfDue
  split
  · exact keepsNames_collectGarbage m
  · exact .refl m

/-- Names do not depend on the frames and the journal. -/
theorem keepsNames_of_bare (same : m.bare = m'.bare) : m.KeepsNames m' := by
  have stores : m'.store = m.store := (congrArg Machine.store same.symm :)
  have registries : m'.registry = m.registry := (congrArg Machine.registry same.symm :)
  refine keepsNames_of_heap (by rw [stores]) ?_ (by rw [registries]) fun id => by rw [registries]
  rw [show m'.heap = m.heap from congrArg Store.heap stores]
  exact .refl _

theorem keepsNames_evalFormWith (host : Host) (fuel : Nat) (form : Ref) (safe : m.Safe) :
    m.KeepsNames (after (evalFormWith host fuel form m)) := by
  have parked := keepsNames_of_bare (modifyBottom_bare m fun stack => form :: stack)
  have ran := (guarded_evalFormWith host fuel form safe).develops.names
  exact (parked.trans (keepsNames_collectIfDue _)).trans ran

theorem keepsNames_evalForms {fuel count : Nat} {reader : Reader} {results all : List FormResult}
    (safe : m.Safe) (done : evalForms fuel count reader results m = some (all, m')) :
    m.KeepsNames m' := by
  induction count generalizing reader results m with
  | zero =>
      cases done
      exact .refl _
  | succ count ih =>
      have read := readForm_develops reader safe.toOrderly
      unfold evalForms at done
      rcases took : readForm reader m with ⟨outcome, reader₁, m₁⟩
      rw [took] at done read
      have safe₁ : m₁.Safe := read.safe safe
      rcases outcome with e | _ | form
      · cases done
        exact read.names
      · cases done
        exact read.names
      · have ran := keepsNames_evalFormWith (serve fuel) fuel form safe₁
        have safe₂ := safe₁.evalFormWith (serve fuel) fuel form
        dsimp only [evalForm] at done
        cases ended : evalFormWith (serve fuel) fuel form m₁ with
        | ok value m₂ =>
            rw [ended] at done ran safe₂
            have pinned := keepsNames_of_bare (modifyBottom_bare m₂ fun stack => value :: stack)
            exact ((read.names.trans ran).trans pinned).trans (ih (safe₂.modifyBottom _) done)
        | error e m₂ =>
            rw [ended] at done ran safe₂
            cases e with
            | outOfFuel => cases done
            | failed e => exact (read.names.trans ran).trans (ih safe₂ done)

theorem keepsNames_evalText {fuel : Nat} {source : String} {results : List FormResult}
    (safe : m.Safe) (done : evalText fuel source m = some (results, m')) : m.KeepsNames m' := by
  unfold evalText at done
  dsimp only at done
  split at done
  · cases done
  · next found m₁ ran =>
      cases done
      exact (keepsNames_evalForms safe ran).trans (keepsNames_of_bare (modifyBottom_bare m₁ _))

/-- Whatever is done with a machine, also when it fails, names keep their cells. -/
theorem Uses.keepsNames {rests : List Machine} (uses : m.Uses rests m') (safe : m.Safe) :
    m.KeepsNames m' := by
  cases uses with
  | readForm reader => exact (readForm_develops reader safe.toOrderly).names
  | @evalForm fuel form _ _ => exact keepsNames_evalFormWith (serve fuel) fuel form safe
  | evalText done => exact keepsNames_evalText safe done
  | intern name =>
      exact (@guarded_intern HeapError (fun _ => True) m id (fun _ => trivial) safe.toOrderly
        name).develops.names
  | @ensureModule name symbol =>
      exact (@guarded_ensureModule HeapError (fun _ => True) m id (fun _ => trivial) name
        safe.toOrderly symbol).develops.names
  | takeDefinitions => exact keepsNames_of_heap rfl (.refl _) rfl fun _ => rfl
  | collectGarbage => exact keepsNames_collectGarbage m

/-! ## Machines in use -/

/-- The second machine comes from the first by any number of uses. -/
inductive Later (m : Machine) : Machine → Prop where
  | refl : Later m m
  | use {m' m'' : Machine} {rests : List Machine} : Later m m' → m'.Uses rests m'' → Later m m''

theorem InUse.later (inUse : m.InUse) (later : m.Later m') : m'.InUse ∧ m.KeepsNames m' := by
  induction later with
  | refl => exact ⟨inUse, .refl m⟩
  | use _ uses ih =>
      obtain ⟨inUse', names⟩ := ih
      exact ⟨.use inUse' uses, names.trans (uses.keepsNames inUse'.resting.safe)⟩

theorem boot_keepsNames {config : Config} {level : Option NoteLevel}
    (booted : boot config level = .ok m) : (blank config level).KeepsNames m := by
  obtain ⟨user, m₁, develops, known, rfl⟩ := boot_develops booted
  exact develops.names.trans (keepsNames_of_heap rfl (.refl _) rfl fun _ => rfl)

/-- A machine in use has come from an empty store, so its symbols and module cells are
    registered. -/
theorem InUse.registered (inUse : m.InUse) :
    m.store.Listed ∧
      ∀ r id, m.heap.scalar? r = some (.moduleCell id) → id < m.registry.size := by
  induction inUse with
  | @boot config level m booted =>
      have names := boot_keepsNames booted
      have empty : ∀ r s, (blank config level).heap.scalar? r ≠ some s := by
        intro r s found
        rcases r.null_or_ofSlot with rfl | ⟨slot, rfl⟩ <;>
          simp [Heap.scalar?, Heap.ofConfig, Heap.ofArenaSize, blank, Store.ofHeap] at found
      refine ⟨fun cell name named => ?_, fun r id found => ?_⟩
      · exact (names.store.listed cell name named).resolve_left fun before =>
          empty cell _ (Heap.scalar?_eq_some.2 (Heap.symbol?_eq_some.1 before))
      · exact (names.modules r id found).resolve_left (empty r _)
  | use inUse uses ih =>
      obtain ⟨listed, placed⟩ := ih
      have names := uses.keepsNames inUse.resting.safe
      refine ⟨listed.keeps names.store, fun r id found => ?_⟩
      rcases names.modules r id found with before | known
      · exact Nat.lt_of_lt_of_le (placed r id before) names.size
      · exact known

/-- Raising the arena limit makes room. -/
theorem not_isFull_setMaxArenas (m : Machine) : ¬ (m.setMaxArenas none).heap.IsFull := by
  rintro ⟨_, limit, unlimited, _⟩
  cases unlimited

/-- A symbol is its name, in every state that a fresh machine reaches by any uses, failed
    ones among them. The table leads from a name to a cell exactly when the cell is a symbol
    of that name, so symbol cells are the same exactly when their names are. A name that has
    a cell keeps it whatever is done later, and interning it then allocates nothing. An
    interning that fails leaves the machine as it was; it fails only because the name is new
    and the heap is full, and it succeeds in any later state with room, as it does at once
    under a raised limit. -/
theorem a_symbol_is_its_name (inUse : m.InUse) :
    (∀ name cell, m.store.lookup name = some cell ↔ m.heap.symbol? cell = some name) ∧
    (∀ name name' cell, m.store.lookup name = some cell → m.store.lookup name' = some cell →
      name = name') ∧
    (∀ cell cell' name name', m.heap.symbol? cell = some name → m.heap.symbol? cell' = some name' →
      (cell = cell' ↔ name = name')) ∧
    (∀ m', m.Later m' → ∀ name cell, m.store.lookup name = some cell →
      m'.store.lookup name = some cell ∧ m'.heap.symbol? cell = some name ∧
        intern id name m' = .ok cell m') ∧
    ∀ name e m', intern id name m = .error e m' →
      m' = m ∧ m.store.lookup name = none ∧ m.heap.IsFull ∧
      (∀ later, m.Later later → ¬ later.heap.IsFull →
        ∃ cell n, intern id name later = .ok cell n ∧ n.store.lookup name = some cell) ∧
      ∃ cell n, intern id name (m.setMaxArenas none) = .ok cell n ∧
        n.store.lookup name = some cell := by
  have sound := inUse.resting.safe.store
  have listed := inUse.registered.1
  refine ⟨fun name cell => ⟨sound.lookup, listed cell name⟩,
    fun name name' cell found found' => sound.lookup_inj found found', ?_, ?_, ?_⟩
  · intro cell cell' name name' named named'
    constructor
    · rintro rfl
      exact Option.some.inj (named.symm.trans named')
    · rintro rfl
      exact listed.symbol?_inj named named'
  · intro m' later name cell found
    obtain ⟨inUse', names⟩ := inUse.later later
    have found' := names.store.known name cell found
    exact ⟨found', inUse'.resting.safe.store.lookup found', intern_known id found'⟩
  · intro name e m' failed
    -- In a later state with room the name is known by then, or it receives a cell.
    have succeeds : ∀ later : Machine, later.heap.WellFormed → ¬ later.heap.IsFull →
        ∃ cell n, intern id name later = .ok cell n ∧ n.store.lookup name = some cell := by
      intro later wf room
      cases known : later.store.lookup name with
      | some cell => exact ⟨cell, later, intern_known id known, known⟩
      | none =>
          rcases intern_unknown id wf known with ⟨full, _⟩ | ⟨_, interned⟩
          · exact absurd full room
          · exact interned
    have wf := sound.heap.wellFormed
    cases known : m.store.lookup name with
    | some cell =>
        rw [intern_known id known] at failed
        cases failed
    | none =>
        rcases intern_unknown id wf known with ⟨full, e', failed'⟩ | ⟨_, cell, n, interned, _⟩
        · rw [failed'] at failed
          cases failed
          refine ⟨rfl, rfl, full, fun later reached room => ?_, ?_⟩
          · exact succeeds later (inUse.later reached).1.resting.safe.store.heap.wellFormed room
          · exact succeeds _ ⟨wf.arenas, wf.free⟩ (not_isFull_setMaxArenas m)
        · rw [interned] at failed
          cases failed

end

/-- Whether a name cannot be interned after a text in a fresh machine, the heap has room after
    a collection, and the true value has a name. -/
def fullUntilCollected (config : Config) (source name : String) : Bool :=
  match boot config none with
  | .error _ => false
  | .ok m =>
      match evalText 100 source m with
      | none => false
      | some (_, m) =>
          (match intern id name m with
            | .ok _ _ => false
            | .error _ _ => true) &&
          (decide (m.collectGarbage.2.heap.live < m.collectGarbage.2.heap.capacity) &&
            (m.store.lookup Keyword.t.name).isSome)

/-- A full heap, in which a new name has no room until garbage has been collected. -/
theorem a_symbol_is_its_name_sample :
    ∃ (m : Machine) (e : HeapError) (truth : Ref), m.InUse ∧ m.store.lookup "t" = some truth ∧
      m.heap.symbol? truth = some "t" ∧ intern id "late" m = .error e m ∧ m.heap.IsFull ∧
      intern id "t" m.collectGarbage.2 = .ok truth m.collectGarbage.2 ∧
      ∃ cell n, intern id "late" m.collectGarbage.2 = .ok cell n ∧
        n.store.lookup "late" = some cell := by
  have full : fullUntilCollected { arenaSize := 32, maxArenas := some 1 } "(1 2)" "late" = true := by
    decide +kernel
  unfold fullUntilCollected at full
  split at full
  · cases full
  · next m booted =>
      split at full
      · cases full
      · next results m₁ ran =>
          simp only [Bool.and_eq_true] at full
          obtain ⟨fails, room, named⟩ := full
          have inUse : m₁.InUse := .use (.boot booted) (.evalText ran)
          have later : m₁.Later m₁.collectGarbage.2 := .use .refl (.collectGarbage m₁)
          have notFull : ¬ m₁.collectGarbage.2.heap.IsFull := by
            rintro ⟨all, _⟩
            exact absurd (of_decide_eq_true room) (by rw [all]; exact Nat.lt_irrefl _)
          obtain ⟨exact_, _, _, stays, failing⟩ := a_symbol_is_its_name inUse
          obtain ⟨truth, known⟩ := Option.isSome_iff_exists.1 named
          split at fails
          · cases fails
          · next e m₂ failed =>
              obtain ⟨rfl, _, isFull, succeeds, _⟩ := failing "late" e m₂ failed
              exact ⟨_, e, truth, inUse, known, (exact_ "t" truth).1 known, failed, isFull,
                (stays _ later "t" truth known).2.2, succeeds _ later notFull⟩

end Machine

end LispMachine
