import LispMachine.Proofs.Compiler.Failure
import LispMachine.Toplevel

/-!
# How stores and machines develop

Between two collections a machine only gains: cells in use keep their contents, and
modules keep their names and their cells. Each symbol and each module cell that is new is
registered under its name or its number. A machine is in order when its heap is sound,
every module is in its place and every recorded definition is bound.
-/

namespace LispMachine

/-! ## Cells that stand for names -/

/-- Whether a scalar stands for a name or a module and is found through a table. -/
def Scalar.isRegistered : Scalar → Bool
  | .symbol _ => true
  | .moduleCell _ => true
  | _ => false

namespace Heap

/-- No symbol and no module cell of the second heap is new. -/
def AddsNoNames (h h' : Heap) : Prop :=
  ∀ r s, h'.scalar? r = some s → s.isRegistered = true → h.scalar? r = some s

section

variable {h h' : Heap}

theorem AddsNoNames.refl (h : Heap) : h.AddsNoNames h := fun _ _ found _ => found

/-- Running code adds pairs and integers only. -/
theorem Extends.addsNoNames (extended : h.Extends h') (wf : h.WellFormed) : h.AddsNoNames h' := by
  intro r s found registered
  refine scalar?_eq_some.2 (extended.scalar? wf (scalar?_eq_some.1 found) ?_)
  rintro value rfl
  cases registered

/-- A scalar that is found after an allocation was there before or has been allocated. -/
theorem Allocated.scalar? {cell : Cell} {r place : Ref} {s : Scalar}
    (allocated : h.Allocated cell r h') (found : h'.scalar? place = some s) :
    h.scalar? place = some s ∨ (place = r ∧ cell = .scalar s) := by
  have held := scalar?_eq_some.1 found
  rcases (allocated.live_iff place).1 ⟨_, held, rfl⟩ with rfl | live
  · exact Or.inr ⟨rfl, Option.some.inj (allocated.found.symm.trans held)⟩
  · exact Or.inl (scalar?_eq_some.2 ((allocated.kept place live).symm.trans held))

theorem Allocated.addsNoNames {cell : Cell} {r : Ref} (allocated : h.Allocated cell r h')
    (other : ∀ s, cell = .scalar s → s.isRegistered = false) : h.AddsNoNames h' := by
  intro place s found registered
  rcases allocated.scalar? found with before | ⟨_, new⟩
  · exact before
  · rw [other s new] at registered
    cases registered

end

end Heap

/-! ## Stores -/

/-- A scalar may join a sound heap unless it is a probe; code has to be sound. -/
theorem Cell.joins_scalar {h : Heap} {s : Scalar} (plain : ∀ probe, s ≠ .native (.probe probe))
    (codes : ∀ code, s.code? = some code → code.Sound h) : (Cell.scalar s).Joins h where
  used := rfl
  plain := by
    rintro probe ⟨⟩
    exact plain probe rfl
  code := by
    rintro s code ⟨⟩ coded
    exact codes code coded

theorem Cell.joins_symbol (h : Heap) (name : String) : (Cell.scalar (.symbol name)).Joins h :=
  joins_scalar (by simp) (by simp [Scalar.code?])

namespace Store

/-- The heap is sound, and the table leads from each name to a symbol of that name. -/
structure Sound (s : Store) : Prop where
  heap : s.heap.Safe
  named : ∀ p ∈ s.symbols, s.heap.symbol? p.2 = some p.1

/-- Names keep their cells, and the cell of a new symbol is that of its name. -/
structure KeepsNames (s s' : Store) : Prop where
  known : ∀ name cell, s.lookup name = some cell → s'.lookup name = some cell
  listed : ∀ cell name, s'.heap.symbol? cell = some name →
    s.heap.symbol? cell = some name ∨ s'.lookup name = some cell

theorem KeepsNames.trans {a b c : Store} (first : a.KeepsNames b) (second : b.KeepsNames c) :
    a.KeepsNames c where
  known name cell found := second.known name cell (first.known name cell found)
  listed cell name named := by
    rcases second.listed cell name named with before | found
    · exact (first.listed cell name before).imp id (second.known name cell)
    · exact Or.inr found

/-- A change of the heap without new symbols. -/
theorem keepsNames_of_heap {s : Store} {h : Heap} (plain : s.heap.AddsNoNames h) :
    s.KeepsNames ⟨h, s.symbols⟩ where
  known _ _ found := found
  listed cell name named :=
    Or.inl (Heap.symbol?_eq_some.2 (Heap.scalar?_eq_some.1
      (plain cell (.symbol name) (Heap.scalar?_eq_some.2 (Heap.symbol?_eq_some.1 named)) rfl)))

/-- The second store is sound and comes from the first by adding cells and symbols; no
    module cell is new. -/
structure Grows (s s' : Store) : Prop where
  sound : s'.Sound
  kept : s.heap.Keeps s'.heap
  roots : s.roots ⊆ s'.roots
  names : s.KeepsNames s'
  modules : ∀ r id, s'.heap.scalar? r = some (.moduleCell id) →
    s.heap.scalar? r = some (.moduleCell id)

/-- A change of the heap that keeps its cells. -/
theorem Sound.withHeap {s : Store} (sound : s.Sound) {h : Heap} (safe : h.Safe)
    (kept : s.heap.Keeps h) (plain : s.heap.AddsNoNames h) : s.Grows ⟨h, s.symbols⟩ where
  sound := ⟨safe, fun p member => kept.symbol? (sound.named p member)⟩
  kept := kept
  roots := List.Subset.refl _
  names := keepsNames_of_heap plain
  modules r _ found := plain r _ found rfl

theorem Sound.refl {s : Store} (sound : s.Sound) : s.Grows s :=
  sound.withHeap sound.heap (.refl _) (.refl _)

theorem Grows.trans {a b c : Store} (first : a.Grows b) (second : b.Grows c) : a.Grows c where
  sound := second.sound
  kept := first.kept.trans second.kept
  roots := List.Subset.trans first.roots second.roots
  names := first.names.trans second.names
  modules r _ found := first.modules r _ (second.modules r _ found)

/-- A store operation that only adds to a sound store. -/
def Secure {ε α : Type} (action : EStateM ε Store α) : Prop :=
  ∀ s : Store, s.Sound → s.Grows (after (action s))

section

variable {ε α β : Type}

theorem Secure.bind {action : EStateM ε Store α} {next : α → EStateM ε Store β}
    (first : Secure action) (second : ∀ a, Secure (next a)) : Secure (action >>= next) := by
  intro s sound
  have before := first s sound
  rw [bind_apply]
  cases done : action s with
  | ok a s' =>
      rw [done] at before
      exact before.trans (second a s' before.sound)
  | error e s' =>
      rw [done] at before
      exact before

theorem secure_pure (a : α) : Secure (pure a : EStateM ε Store α) := fun _ sound => sound.refl

theorem secure_throw (e : ε) : Secure (throw e : EStateM ε Store α) := fun _ sound => sound.refl

theorem secure_intern (name : String) : Secure (intern name) := by
  intro s sound
  rw [intern_apply]
  cases unknown : s.lookup name with
  | some cell => exact sound.refl
  | none =>
      dsimp only
      have joins := Cell.joins_symbol s.heap name
      rcases Heap.alloc_cases sound.heap.wellFormed joins.used with
        ⟨cell, heap, done, allocated⟩ | ⟨failed, _⟩
      · rw [done]
        refine ⟨⟨sound.heap.allocated joins allocated, fun p member => ?_⟩, allocated.kept,
          fun r member => ?_, ⟨fun other r found => ?_, fun r other named => ?_⟩,
          fun r id found => ?_⟩
        · rcases Assoc.mem_insert member with rfl | old
          · exact Heap.symbol?_eq_some.2 allocated.found
          · exact allocated.kept.symbol? (sound.named p old)
        · exact mem_roots_insert unknown cell (Or.inl member)
        · have different : name ≠ other := by
            rintro rfl
            rw [unknown] at found
            cases found
          exact (Assoc.lookup_insert ..).trans ((if_neg different).trans found)
        · have held := Heap.scalar?_eq_some.2 (Heap.symbol?_eq_some.1 named)
          rcases allocated.scalar? held with before | ⟨rfl, new⟩
          · exact Or.inl (Heap.symbol?_eq_some.2 (Heap.scalar?_eq_some.1 before))
          · cases new
            exact Or.inr ((Assoc.lookup_insert ..).trans (if_pos rfl))
        · rcases allocated.scalar? found with before | ⟨_, new⟩
          · exact before
          · cases new
      · rw [failed]
        exact sound.refl

/-- An interned name is that of a symbol. -/
theorem intern_ok {name : String} {r : Ref} {s s' : Store} (sound : s.Sound)
    (done : intern name s = .ok r s') : s'.heap.symbol? r = some name := by
  rw [intern_apply] at done
  cases found : s.lookup name with
  | some cell =>
      rw [found] at done
      cases done
      exact sound.named _ (Assoc.mem_of_lookup found)
  | none =>
      rw [found] at done
      dsimp only at done
      rcases Heap.alloc_cases sound.heap.wellFormed (Cell.joins_symbol s.heap name).used with
        ⟨cell, heap, made, allocated⟩ | ⟨failed, _⟩
      · rw [made] at done
        cases done
        exact Heap.symbol?_eq_some.2 allocated.found
      · rw [failed] at done
        cases done

end

end Store

namespace Reader

open Store

theorem secure_onHeap {α : Type} {action : EStateM HeapError Heap α}
    (extended : ∀ h : Heap, h.WellFormed → h.Extends (after (action h))) :
    Secure (onHeap action) := by
  intro s sound
  have step := extended s.heap sound.heap.wellFormed
  have grown : ∀ heap, s.heap.Extends heap → s.Grows ⟨heap, s.symbols⟩ := fun heap extends_ =>
    sound.withHeap (extends_.safe sound.heap) (extends_.keeps sound.heap.wellFormed).2
      (extends_.addsNoNames sound.heap.wellFormed)
  simp only [onHeap, Store.onHeap_apply]
  cases done : action s.heap <;> rw [done] at step <;> exact grown _ step

theorem secure_list (items : List Ref) (tail : Ref) : Secure (onHeap (Heap.listWithTail items tail)) :=
  secure_onHeap fun _ wf => Heap.listWithTail_extends wf items tail

theorem secure_integer (value : Int64) : Secure (onHeap (Heap.integer value)) :=
  secure_onHeap fun _ wf => Heap.alloc_extends wf trivial

theorem secure_name (name : String) : Secure (intern name) := by
  intro s sound
  have step := secure_intern name s sound
  simp only [intern]
  cases done : Store.intern name s <;> rw [done] at step <;> exact step

theorem secure_plug (contexts : List Context) (form : Ref) : Secure (plug contexts form) := by
  induction contexts generalizing form with
  | nil => exact secure_pure _
  | cons context outer ih =>
      cases context with
      | quote => exact (secure_name _).bind fun quote => (secure_list _ _).bind fun quoted => ih quoted
      | list items => exact secure_pure _
      | tail dot items => exact secure_pure _
      | close dot items tail => exact secure_throw _

theorem secure_startForm (contexts : List Context) (token : Token) (start : Nat) :
    Secure (startForm contexts token start) := by
  cases token with
  | openParen => exact secure_pure _
  | closeParen => exact secure_throw _
  | quote => exact secure_pure _
  | integer value => exact (secure_integer value).bind fun form => secure_plug contexts form
  | symbol name =>
      unfold startForm
      dsimp only
      split
      · exact secure_throw _
      · exact (secure_name name).bind fun form => secure_plug contexts form

theorem secure_advance (contexts : List Context) (token : Token) (start : Nat) :
    Secure (advance contexts token start) := by
  unfold advance
  split
  · split
    · exact (secure_list _ _).bind fun form => secure_plug _ form
    · exact secure_throw _
  · split
    · exact (secure_list _ _).bind fun form => secure_plug _ form
    · split
      · exact secure_throw _
      · exact secure_pure _
    · exact secure_startForm _ _ _
  · exact secure_startForm _ _ _

/-- Reading a form only adds to the store. -/
theorem readFrom_grows (length : Nat) (contexts : List Context) (ahead : List Lexeme) (s : Store)
    (sound : s.Sound) : s.Grows (after (readFrom length contexts ahead s)).2 := by
  induction ahead generalizing contexts s with
  | nil => cases contexts <;> exact sound.refl
  | cons lexeme ahead ih =>
      rcases lexeme with ⟨span, e | token⟩
      · exact sound.refl
      · have step := secure_advance contexts token span.start s sound
        unfold readFrom
        cases done : advance contexts token span.start s with
        | error e s' =>
            rw [done] at step
            exact step
        | ok progress s' =>
            rw [done] at step
            cases progress with
            | done form => exact step
            | more contexts => exact step.trans (ih contexts s' step.sound)

end Reader

/-! ## Modules -/

/-- The module is in its place: its cell tells which module it is, and its name is a
    symbol. -/
structure Module.Placed (h : Heap) (id : ModuleId) (m : Module) : Prop where
  cell : h.cell? m.cell = some (.scalar (.moduleCell id))
  name : h.isSymbol m.name = true

/-- Every module is in its place, and no name leads beyond the modules. -/
structure Registry.Orderly (h : Heap) (r : Registry) : Prop where
  placed : ∀ id module, r.get? id = some module → module.Placed h id
  found : ∀ p ∈ r.byName, p.2 < r.size

namespace Registry

variable {h h' : Heap} {r : Registry}

theorem Orderly.keeps (orderly : r.Orderly h) (kept : h.Keeps h') : r.Orderly h' where
  placed := by
    intro id module found
    obtain ⟨cell, name⟩ := orderly.placed id module found
    exact ⟨(kept _ ⟨_, cell, rfl⟩).trans cell, kept.isSymbol name⟩
  found := orderly.found

theorem Orderly.find? (orderly : r.Orderly h) {name : Ref} {id : ModuleId}
    (found : r.find? name = some id) : id < r.size :=
  orderly.found _ (Assoc.mem_of_lookup found)

theorem get?_modify (modules : Array Module) (byName : List (Ref × ModuleId)) (id other : ModuleId)
    (f : Module → Module) :
    get? ⟨modules.modify id f, byName⟩ other =
      if id = other then (get? ⟨modules, byName⟩ other).map f else get? ⟨modules, byName⟩ other :=
  Array.getElem?_modify

/-- Bindings have no influence on the places of modules. -/
theorem Orderly.modify (orderly : r.Orderly h) (id : ModuleId) {f : Module → Module}
    (keeps : ∀ m, (f m).name = m.name ∧ (f m).cell = m.cell) :
    Orderly h { r with modules := r.modules.modify id f } where
  placed := by
    intro other module found
    rw [get?_modify] at found
    split at found
    · obtain ⟨before, held, rfl⟩ := Option.map_eq_some_iff.1 found
      obtain ⟨cell, name⟩ := orderly.placed other before held
      exact ⟨by rw [(keeps before).2]; exact cell, by rw [(keeps before).1]; exact name⟩
    · exact orderly.placed other module found
  found := by
    simp only [size, Array.size_modify]
    exact orderly.found

theorem Orderly.bindValue (orderly : r.Orderly h) (id : ModuleId) (symbol value : Ref) :
    (r.bindValue id symbol value).Orderly h := orderly.modify id fun _ => ⟨rfl, rfl⟩

theorem Orderly.bindFunction (orderly : r.Orderly h) (id : ModuleId) (symbol function : Ref) :
    (r.bindFunction id symbol function).Orderly h := orderly.modify id fun _ => ⟨rfl, rfl⟩

@[simp] theorem size_bindValue (id : ModuleId) (symbol value : Ref) :
    (r.bindValue id symbol value).size = r.size := Array.size_modify

@[simp] theorem size_bindFunction (id : ModuleId) (symbol function : Ref) :
    (r.bindFunction id symbol function).size = r.size := Array.size_modify

@[simp] theorem size_add (name cell : Ref) : (r.add name cell).size = r.size + 1 := by
  simp [add, size]

theorem get?_add (name cell : Ref) (id : ModuleId) :
    (r.add name cell).get? id = if id = r.size then some ⟨name, cell, [], []⟩ else r.get? id :=
  Array.getElem?_push

theorem Orderly.add (orderly : r.Orderly h) {name cell : Ref} (symbol : h.isSymbol name = true)
    (placed : h.cell? cell = some (.scalar (.moduleCell r.size))) :
    (r.add name cell).Orderly h where
  placed := by
    intro id module found
    rw [get?_add] at found
    split at found
    · next last =>
        cases found
        exact ⟨by rw [last]; exact placed, symbol⟩
    · exact orderly.placed id module found
  found := by
    intro p member
    rw [size_add]
    rcases Assoc.mem_insert member with new | old
    · rw [new]
      exact Nat.lt_succ_self _
    · exact Nat.lt_succ_of_lt (orderly.found p old)

theorem function?_eq (id : ModuleId) (symbol : Ref) :
    r.function? id symbol = (r.get? id).bind fun m => m.function? symbol := by
  unfold function?
  cases r.get? id <;> rfl

/-- What is bound stays bound, and the new name is bound if there is such a module. -/
theorem function?_bindFunction (id other : ModuleId) (symbol name function : Ref) :
    (r.bindFunction id symbol function).function? other name =
      if id = other ∧ symbol = name ∧ id < r.size then some function
      else r.function? other name := by
  rw [function?_eq, function?_eq, bindFunction, get?_modify]
  by_cases same : id = other
  · subst same
    rw [if_pos rfl, show get? ⟨r.modules, r.byName⟩ id = r.get? id from rfl]
    cases held : r.get? id with
    | none =>
        have beyond : ¬ id < r.size := Nat.not_lt.2 (Array.getElem?_eq_none_iff.1 held)
        simp [beyond]
    | some module =>
        obtain ⟨known, -⟩ := Array.getElem?_eq_some_iff.1 held
        have within : id < r.size := known
        simp only [Option.map_some, Option.bind_some, Module.function?, Module.bindFunction,
          Assoc.lookup_insert, within, true_and, and_true]
  · simp [same]

theorem function?_bindValue (id other : ModuleId) (symbol name value : Ref) :
    (r.bindValue id symbol value).function? other name = r.function? other name := by
  rw [function?_eq, function?_eq, bindValue, get?_modify]
  split
  · cases r.get? other <;> rfl
  · rfl

theorem function?_add (name cell : Ref) {id : ModuleId} (known : id < r.size) (symbol : Ref) :
    (r.add name cell).function? id symbol = r.function? id symbol := by
  rw [function?_eq, function?_eq, get?_add, if_neg (Nat.ne_of_lt known)]

theorem nameOf_eq (id : ModuleId) : r.nameOf id = ((r.get? id).map Module.name).getD .null := by
  unfold nameOf
  cases r.get? id <;> rfl

theorem nameOf_modify (id other : ModuleId) {f : Module → Module} (keeps : ∀ m, (f m).name = m.name) :
    nameOf { r with modules := r.modules.modify id f } other = r.nameOf other := by
  rw [nameOf_eq, nameOf_eq, get?_modify]
  split
  · cases get? ⟨r.modules, r.byName⟩ other with
    | none => rfl
    | some module => exact keeps module
  · rfl

theorem nameOf_bindValue (id : ModuleId) (symbol value : Ref) (other : ModuleId) :
    (r.bindValue id symbol value).nameOf other = r.nameOf other :=
  nameOf_modify id other fun _ => rfl

theorem nameOf_bindFunction (id : ModuleId) (symbol function : Ref) (other : ModuleId) :
    (r.bindFunction id symbol function).nameOf other = r.nameOf other :=
  nameOf_modify id other fun _ => rfl

theorem nameOf_add (name cell : Ref) {id : ModuleId} (known : id < r.size) :
    (r.add name cell).nameOf id = r.nameOf id := by
  rw [nameOf_eq, nameOf_eq, get?_add, if_neg (Nat.ne_of_lt known)]

theorem lt_size_of_function? {id : ModuleId} {symbol : Ref}
    (bound : (r.function? id symbol).isSome = true) : id < r.size := by
  rw [function?_eq] at bound
  cases held : r.get? id with
  | none =>
      rw [held] at bound
      cases bound
  | some module =>
      obtain ⟨known, -⟩ := Array.getElem?_eq_some_iff.1 held
      exact known

end Registry

/-! ## Machines -/

namespace Machine

/-- The store is sound, every module is in its place, and every recorded definition is
    bound. -/
structure Orderly (m : Machine) : Prop where
  store : m.store.Sound
  modules : m.registry.Orderly m.heap
  defined : ∀ p ∈ m.defined, (m.registry.function? p.1 p.2).isSome = true

/-- An orderly machine in which the module for forms has been created. -/
structure Safe (m : Machine) : Prop extends Orderly m where
  user : m.user < m.registry.size

/-- Symbols and modules keep their names; the cell of a new symbol is that of its name, and
    a new module cell is that of a module. -/
structure KeepsNames (m m' : Machine) : Prop where
  store : m.store.KeepsNames m'.store
  size : m.registry.size ≤ m'.registry.size
  called : ∀ id, id < m.registry.size → m'.registry.nameOf id = m.registry.nameOf id
  modules : ∀ r id, m'.heap.scalar? r = some (.moduleCell id) →
    m.heap.scalar? r = some (.moduleCell id) ∨ id < m'.registry.size

/-- The second machine is orderly and has come from the first without a collection. -/
structure Develops (m m' : Machine) : Prop where
  orderly : m'.Orderly
  kept : m.heap.Keeps m'.heap
  names : m.KeepsNames m'
  user : m'.user = m.user

section

variable {m m' : Machine}

theorem Orderly.heap (orderly : m.Orderly) : m.heap.Safe := orderly.store.heap

theorem KeepsNames.trans {a b c : Machine} (first : a.KeepsNames b) (second : b.KeepsNames c) :
    a.KeepsNames c where
  store := first.store.trans second.store
  size := Nat.le_trans first.size second.size
  called id known :=
    (second.called id (Nat.lt_of_lt_of_le known first.size)).trans (first.called id known)
  modules r i found := by
    rcases second.modules r i found with before | known
    · exact (first.modules r i before).imp id fun known => Nat.lt_of_lt_of_le known second.size
    · exact Or.inr known

/-- A change of the heap, without new symbols and module cells, and of bindings. -/
theorem keepsNames_of_heap (symbols : m'.store.symbols = m.store.symbols)
    (plain : m.heap.AddsNoNames m'.heap) (size : m'.registry.size = m.registry.size)
    (called : ∀ id, m'.registry.nameOf id = m.registry.nameOf id) : m.KeepsNames m' where
  store := by
    have names := Store.keepsNames_of_heap plain
    rw [← symbols] at names
    exact names
  size := Nat.le_of_eq size.symm
  called id _ := called id
  modules r id found := Or.inl (plain r _ found rfl)

theorem KeepsNames.refl (m : Machine) : m.KeepsNames m :=
  keepsNames_of_heap rfl (.refl _) rfl fun _ => rfl

theorem Orderly.refl (orderly : m.Orderly) : m.Develops m :=
  ⟨orderly, .refl _, .refl m, rfl⟩

theorem Develops.size (develops : m.Develops m') : m.registry.size ≤ m'.registry.size :=
  develops.names.size

theorem Develops.trans {a b c : Machine} (first : a.Develops b) (second : b.Develops c) :
    a.Develops c :=
  ⟨second.orderly, first.kept.trans second.kept, first.names.trans second.names,
    second.user.trans first.user⟩

theorem Develops.safe (develops : m.Develops m') (safe : m.Safe) : m'.Safe where
  toOrderly := develops.orderly
  user := by
    rw [develops.user]
    exact Nat.lt_of_lt_of_le safe.user develops.size

/-- A change of the store only. -/
theorem Orderly.withStore (orderly : m.Orderly) {s : Store} (grows : m.store.Grows s) :
    m.Develops { m with store := s } where
  orderly := ⟨grows.sound, orderly.modules.keeps grows.kept, orderly.defined⟩
  kept := grows.kept
  names := ⟨grows.names, Nat.le_refl _, fun _ _ => rfl, fun r id found => Or.inl (grows.modules r id found)⟩
  user := rfl

/-- Allocation of a cell that stands for no name. -/
theorem Orderly.alloc (orderly : m.Orderly) {cell : Cell} (joins : cell.Joins m.heap)
    (other : ∀ s, cell = .scalar s → s.isRegistered = false) :
    m.Develops (m.withHeap (after (Heap.alloc cell m.heap))) := by
  have step := orderly.heap.alloc joins
  refine orderly.withStore (orderly.store.withHeap step.1 step.2 ?_)
  rcases Heap.alloc_cases orderly.heap.wellFormed joins.used with ⟨r, h, done, allocated⟩ | ⟨failed, _⟩
  · rw [done]
    exact allocated.addsNoNames other
  · rw [failed]
    exact .refl _

/-- The truth, the frames, the printed text and the notes have no influence. -/
theorem Orderly.of_parts (orderly : m.Orderly) (store : m'.store = m.store)
    (registry : m'.registry = m.registry) (defined : m'.defined = m.defined) : m'.Orderly := by
  refine ⟨?_, ?_, ?_⟩
  · rw [store]
    exact orderly.store
  · rw [registry, show m'.heap = m.heap from congrArg Store.heap store]
    exact orderly.modules
  · rw [registry, defined]
    exact orderly.defined

/-- Running code only adds pairs and integers. -/
theorem Orderly.grows (orderly : m.Orderly) (grows : m.Grows m') : m.Develops m' := by
  have kept := grows.keeps orderly.heap.ready
  have plain := grows.heap.addsNoNames orderly.heap.wellFormed
  have step := orderly.withStore (orderly.store.withHeap (grows.heap.safe orderly.heap) kept plain)
  refine ⟨step.orderly.of_parts ?_ grows.registry grows.defined, kept,
    keepsNames_of_heap grows.symbols plain ?_ fun id => ?_, grows.user⟩
  · rw [← grows.symbols]
  · rw [grows.registry]
  · rw [grows.registry]

theorem Orderly.of_bare (orderly : m.Orderly) (same : m.bare = m'.bare) : m.Develops m' :=
  orderly.grows (.of_same same)

theorem Orderly.bindValue (orderly : m.Orderly) (id : ModuleId) (symbol value : Ref) :
    m.Develops (m.bindValue id symbol value) where
  orderly :=
    { store := orderly.store
      modules := orderly.modules.bindValue id symbol value
      defined := by
        intro p member
        rw [Machine.bindValue, Registry.function?_bindValue]
        exact orderly.defined p member }
  kept := .refl _
  names := keepsNames_of_heap rfl (.refl _) (Registry.size_bindValue ..)
    fun other => Registry.nameOf_bindValue id symbol value other
  user := rfl

theorem Orderly.bindFunction (orderly : m.Orderly) (id : ModuleId) (symbol function : Ref) :
    m.Develops (m.bindFunction id symbol function) where
  orderly :=
    { store := orderly.store
      modules := orderly.modules.bindFunction id symbol function
      defined := by
        intro p member
        rw [Machine.bindFunction, Registry.function?_bindFunction]
        split
        · rfl
        · exact orderly.defined p member }
  kept := .refl _
  names :=
    keepsNames_of_heap rfl (.refl _) (Registry.size_bindFunction ..) fun other =>
      Registry.nameOf_bindFunction id symbol function other
  user := rfl

/-- A module joins together with its cell. -/
theorem Orderly.create (orderly : m.Orderly) {name cell : Ref} {h : Heap}
    (symbol : m.heap.isSymbol name = true)
    (allocated : m.heap.Allocated (.scalar (.moduleCell m.registry.size)) cell h) :
    m.Develops { m.withHeap h with registry := m.registry.add name cell } where
  orderly :=
    { store := ⟨orderly.heap.allocated (Cell.joins_scalar (by simp) (by simp [Scalar.code?])) allocated,
        fun p member => allocated.kept.symbol? (orderly.store.named p member)⟩
      modules :=
        (orderly.modules.keeps allocated.kept).add (allocated.kept.isSymbol symbol) allocated.found
      defined := by
        intro p member
        have bound := orderly.defined p member
        rw [Registry.function?_add name cell (Registry.lt_size_of_function? bound)]
        exact bound }
  kept := allocated.kept
  names :=
    { store := by
        refine ⟨fun _ _ found => found, fun r text named => Or.inl ?_⟩
        have held := Heap.scalar?_eq_some.2 (Heap.symbol?_eq_some.1 named)
        rcases allocated.scalar? held with before | ⟨_, new⟩
        · exact Heap.symbol?_eq_some.2 (Heap.scalar?_eq_some.1 before)
        · cases new
      size := by simp
      called := fun id known => Registry.nameOf_add name cell known
      modules := by
        intro r i found
        refine (allocated.scalar? found).imp id ?_
        rintro ⟨_, new⟩
        cases new
        simp }
  user := rfl

/-- A collection leaves symbols and modules in their places: they are roots. -/
theorem Orderly.collect (orderly : m.Orderly) :
    (m.withHeap (m.heap.collect m.roots).2).Orderly := by
  have kept : ∀ r ∈ m.roots, m.heap.Live r → (m.heap.collect m.roots).2.cell? r = m.heap.cell? r := by
    intro r root live
    refine Heap.cell?_collect orderly.heap.unmarked ?_
    exact (Heap.live_collect_iff orderly.heap.unmarked r).2 ⟨live, .root root live⟩
  have symbol : ∀ r ∈ m.roots, ∀ name, m.heap.symbol? r = some name →
      (m.heap.collect m.roots).2.symbol? r = some name := by
    intro r root name named
    have held := Heap.symbol?_eq_some.1 named
    exact Heap.symbol?_eq_some.2 ((kept r root ⟨_, held, rfl⟩).trans held)
  refine ⟨⟨orderly.heap.collect _, fun p member => ?_⟩, ⟨fun id module found => ?_,
    orderly.modules.found⟩, orderly.defined⟩
  · refine symbol _ (List.mem_append_left _ (List.mem_append_right _ ?_)) _ (orderly.store.named p member)
    exact List.mem_map_of_mem member
  · obtain ⟨cell, name⟩ := orderly.modules.placed id module found
    obtain ⟨text, named⟩ := Heap.isSymbol_iff.1 name
    have inside : module ∈ m.registry.modules.toList :=
      Array.mem_toList_iff.2 (Array.mem_of_getElem? found)
    have root : ∀ r ∈ module.roots, r ∈ m.roots := fun r member =>
      List.mem_append_right _ (List.mem_flatMap.2 ⟨module, inside, member⟩)
    refine ⟨(kept _ (root _ (by simp [Module.roots])) ⟨_, cell, rfl⟩).trans cell, ?_⟩
    have held := symbol _ (root _ (by simp [Module.roots])) text (Heap.symbol?_eq_some.2 named)
    exact Heap.isSymbol_iff.2 ⟨text, Heap.symbol?_eq_some.1 held⟩

end

end Machine

end LispMachine
