import LispMachine.Machine.Call
import LispMachine.Proofs.Twins.Mirror

/-!
# Machines that differ in the places of their cells

Two machines go together when their stores, modules and frames are the same up to
ties. Settings, journals, garbage and the order of free cells do not matter. Such
machines print every value in the same way.
-/

namespace LispMachine

/-! ## Lists and tables -/

section

variable {α β : Type} {related : α → β → Prop}

theorem forall₂_getElem? {first : List α} {second : List β}
    (all : List.Forall₂ related first second) (i : Nat) :
    Option.Rel related first[i]? second[i]? := by
  induction all generalizing i with
  | nil => exact .none
  | cons head _ ih =>
      cases i with
      | zero => exact .some head
      | succ i => exact ih i

theorem forall₂_set {first : List α} {second : List β} (all : List.Forall₂ related first second)
    (i : Nat) {a : α} {b : β} (new : related a b) :
    List.Forall₂ related (first.set i a) (second.set i b) := by
  induction all generalizing i with
  | nil => exact .nil
  | cons head rest ih =>
      cases i with
      | zero => exact .cons new rest
      | succ i => exact .cons head (ih i)

theorem forall₂_modify {first : List α} {second : List β}
    (all : List.Forall₂ related first second) (i : Nat) {f : α → α} {g : β → β}
    (new : ∀ a b, related a b → related (f a) (g b)) :
    List.Forall₂ related (first.modify i f) (second.modify i g) := by
  induction all generalizing i with
  | nil =>
      rw [List.modify_nil, List.modify_nil]
      exact .nil
  | cons head rest ih =>
      cases i with
      | zero => exact .cons (new _ _ head) rest
      | succ i => exact .cons head (ih i)

theorem forall₂_append {first first' : List α} {second second' : List β}
    (all : List.Forall₂ related first second) (more : List.Forall₂ related first' second') :
    List.Forall₂ related (first ++ first') (second ++ second') := by
  induction all with
  | nil => exact more
  | cons head _ ih => exact .cons head ih

theorem forall₂_concat {first : List α} {second : List β} {a : α} {b : β}
    (all : List.Forall₂ related (first ++ [a]) (second ++ [b])) :
    List.Forall₂ related first second ∧ related a b := by
  rw [← List.forall₂_reverse_iff, List.reverse_append, List.reverse_append] at all
  cases all with
  | cons head rest => exact ⟨List.forall₂_reverse_iff.1 rest, head⟩

end

namespace Assoc

variable {κ κ' ν ν' : Type} [DecidableEq κ] [DecidableEq κ'] {keys : κ → κ' → Prop}
  {values : ν → ν' → Prop} {first : List (κ × ν)} {second : List (κ' × ν')}

/-- Looking related keys up in tables that go together. -/
theorem lookup_rel (exact_ : ∀ a b a' b', keys a b → keys a' b' → (a = a' ↔ b = b'))
    (all : List.Forall₂ (fun p q => keys p.1 q.1 ∧ values p.2 q.2) first second) {key : κ} {key' : κ'}
    (same : keys key key') : Option.Rel values (lookup key first) (lookup key' second) := by
  induction all with
  | nil => exact .none
  | @cons p q _ _ head _ ih =>
      have agree := exact_ _ _ _ _ head.1 same
      by_cases hit : p.1 = key
      · simp only [lookup, hit, agree.1 hit, if_true]
        exact .some head.2
      · have miss : ¬ q.1 = key' := fun eq => hit (agree.2 eq)
        simp only [lookup, hit, miss, if_false]
        exact ih

theorem insert_rel (exact_ : ∀ a b a' b', keys a b → keys a' b' → (a = a' ↔ b = b'))
    (all : List.Forall₂ (fun p q => keys p.1 q.1 ∧ values p.2 q.2) first second) {key : κ} {key' : κ'}
    (same : keys key key') {value : ν} {value' : ν'} (new : values value value') :
    List.Forall₂ (fun p q => keys p.1 q.1 ∧ values p.2 q.2) (insert key value first)
      (insert key' value' second) := by
  induction all with
  | nil => exact .cons ⟨same, new⟩ .nil
  | @cons p q _ _ head rest ih =>
      have agree := exact_ _ _ _ _ head.1 same
      by_cases hit : p.1 = key
      · simp only [insert, hit, agree.1 hit, if_true]
        exact .cons ⟨same, new⟩ rest
      · have miss : ¬ q.1 = key' := fun eq => hit (agree.2 eq)
        simp only [insert, hit, miss, if_false]
        exact .cons head ih

end Assoc

/-! ## Stores, modules and frames -/

/-- Stores that are the same up to ties. The handles `kept` and `kept'` are empty or
    belong to symbols. -/
structure Store.Twins (kept kept' : Ref) (ties : Ties) (s t : Store) : Prop where
  heap : s.heap.Twins ties t.heap
  symbols : List.Forall₂ (fun p q => p.1 = q.1 ∧ Tied ties p.2 q.2) s.symbols t.symbols
  kept₁ : kept = .null ∨ kept ∈ s.roots
  kept₂ : kept' = .null ∨ kept' ∈ t.roots

/-- Modules that are the same up to related cells. -/
structure Module.Resembles (related : Ref → Ref → Prop) (m n : Module) : Prop where
  name : related m.name n.name
  cell : related m.cell n.cell
  values : List.Forall₂ (fun p q => related p.1 q.1 ∧ related p.2 q.2) m.values n.values
  functions : List.Forall₂ (fun p q => related p.1 q.1 ∧ related p.2 q.2) m.functions n.functions

/-- Registries that are the same up to related cells, with an index of names that are
    names of modules. -/
structure Registry.Resembles (related : Ref → Ref → Prop) (r s : Registry) : Prop where
  modules : List.Forall₂ (Module.Resembles related) r.modules.toList s.modules.toList
  byName : List.Forall₂ (fun p q => related p.1 q.1 ∧ p.2 = q.2) r.byName s.byName
  named₁ : ∀ p ∈ r.byName, p.1 ∈ r.modules.toList.map Module.name
  named₂ : ∀ p ∈ s.byName, p.1 ∈ s.modules.toList.map Module.name

/-- Frames that do the same up to related cells. -/
inductive Activity.Resembles (related : Ref → Ref → Prop) : Activity → Activity → Prop where
  | running {c d : Code} (pc : Nat) : c.Resembles related d →
      Resembles related (.running c pc) (.running d pc)
  | native (name : String) : Resembles related (.native name) (.native name)
  | waiting : Resembles related .waiting .waiting

/-- Frames that are the same up to related cells. -/
structure Frame.Resembles (related : Ref → Ref → Prop) (f g : Frame) : Prop where
  stack : List.Forall₂ related f.stack g.stack
  locals : List.Forall₂ related f.locals.toList g.locals.toList
  activity : f.activity.Resembles related g.activity
  home : f.home = g.home

/-- Machines that are the same up to ties; `sized` says whether their frame limits are the
    same too. -/
structure Machine.Twins (sized : Bool) (ties : Ties) (m n : Machine) : Prop where
  store : m.store.Twins m.truth n.truth ties n.store
  registry : m.registry.Resembles (Tied ties) n.registry
  top : m.top.Resembles (Tied ties) n.top
  callers : List.Forall₂ (Frame.Resembles (Tied ties)) m.callers.toList n.callers.toList
  user : m.user = n.user
  truth : Tied ties m.truth n.truth
  output : m.output = n.output
  maxFrames : sized = true → m.config.maxFrames = n.config.maxFrames

section

variable {related related' : Ref → Ref → Prop}

theorem bindings_imp {first second : List (Ref × Ref)}
    (same : List.Forall₂ (fun p q => related p.1 q.1 ∧ related p.2 q.2) first second)
    (imp : ∀ a ∈ Module.bindingRoots first, ∀ b ∈ Module.bindingRoots second,
      related a b → related' a b) :
    List.Forall₂ (fun p q => related' p.1 q.1 ∧ related' p.2 q.2) first second := by
  have roots : ∀ (bindings : List (Ref × Ref)) (p : Ref × Ref), p ∈ bindings →
      p.1 ∈ Module.bindingRoots bindings ∧ p.2 ∈ Module.bindingRoots bindings := fun bindings p member =>
    ⟨List.mem_flatMap.2 ⟨p, member, by simp⟩, List.mem_flatMap.2 ⟨p, member, by simp⟩⟩
  refine forall₂_imp_mem same fun p member q member' both => ?_
  have inside := roots first p member
  have inside' := roots second q member'
  exact ⟨imp _ inside.1 _ inside'.1 both.1, imp _ inside.2 _ inside'.2 both.2⟩

theorem Module.Resembles.imp {m n : Module} (same : m.Resembles related n)
    (imp : ∀ a ∈ m.roots, ∀ b ∈ n.roots, related a b → related' a b) : m.Resembles related' n where
  name := imp _ (by simp [Module.roots]) _ (by simp [Module.roots]) same.name
  cell := imp _ (by simp [Module.roots]) _ (by simp [Module.roots]) same.cell
  values := bindings_imp same.values fun a inside b inside' =>
    imp a (by simp [Module.roots, inside]) b (by simp [Module.roots, inside'])
  functions := bindings_imp same.functions fun a inside b inside' =>
    imp a (by simp [Module.roots, inside]) b (by simp [Module.roots, inside'])

/-- The name of a module is among its roots. -/
theorem Registry.mem_roots {r : Registry} {name : Ref}
    (member : name ∈ r.modules.toList.map Module.name) : name ∈ r.roots := by
  obtain ⟨m, inside, rfl⟩ := List.mem_map.1 member
  exact List.mem_flatMap.2 ⟨m, inside, by simp [Module.roots]⟩

theorem Registry.Resembles.imp {r s : Registry} (same : r.Resembles related s)
    (imp : ∀ a ∈ r.roots, ∀ b ∈ s.roots, related a b → related' a b) : r.Resembles related' s where
  modules := by
    refine forall₂_imp_mem same.modules fun m member n member' both => ?_
    refine both.imp fun a inside b inside' => imp a ?_ b ?_
    · exact List.mem_flatMap.2 ⟨m, member, inside⟩
    · exact List.mem_flatMap.2 ⟨n, member', inside'⟩
  byName := by
    refine forall₂_imp_mem same.byName fun p member q member' both => ⟨?_, both.2⟩
    exact imp _ (Registry.mem_roots (same.named₁ p member)) _
      (Registry.mem_roots (same.named₂ q member')) both.1
  named₁ := same.named₁
  named₂ := same.named₂

theorem Frame.Resembles.imp {f g : Frame} (same : f.Resembles related g)
    (imp : ∀ a ∈ f.roots, ∀ b ∈ g.roots, related a b → related' a b) : f.Resembles related' g where
  stack := by
    refine forall₂_imp_mem same.stack fun a member b member' => imp a ?_ b ?_
    · simp [Frame.roots, member]
    · simp [Frame.roots, member']
  locals := by
    refine forall₂_imp_mem same.locals fun a member b member' => imp a ?_ b ?_
    · simp [Frame.roots, Array.mem_toList_iff.1 member]
    · simp [Frame.roots, Array.mem_toList_iff.1 member']
  activity := by
    have code := same.activity
    generalize doing : f.activity = first, doing' : g.activity = second at code
    cases code with
    | running pc same =>
        refine .running pc (same.imp fun a member b member' => imp a ?_ b ?_)
        · simp [Frame.roots, Frame.codeRoots, doing, member]
        · simp [Frame.roots, Frame.codeRoots, doing', member']
    | native name => exact .native name
    | waiting => exact .waiting
  home := same.home

end

section

variable {ties ties' : Ties}

theorem Frame.Resembles.mono {f g : Frame} (same : f.Resembles (Tied ties) g) (sub : ties ⊆ ties') :
    f.Resembles (Tied ties') g :=
  same.imp fun _ _ _ _ tied => tied.mono sub

theorem Frame.Resembles.push {f g : Frame} {a b : Ref} (same : f.Resembles (Tied ties) g)
    (tied : Tied ties a b) : (f.push a).Resembles (Tied ties) (g.push b) :=
  ⟨.cons tied same.stack, same.locals, same.activity, same.home⟩

theorem Registry.Resembles.mono {r s : Registry} (same : r.Resembles (Tied ties) s)
    (sub : ties ⊆ ties') : r.Resembles (Tied ties') s :=
  same.imp fun _ _ _ _ tied => tied.mono sub

theorem forall₂_tied_mono {first second : List Ref} (all : List.Forall₂ (Tied ties) first second)
    (sub : ties ⊆ ties') : List.Forall₂ (Tied ties') first second :=
  all.imp fun _ _ tied => tied.mono sub

end

/-! ## Modules -/

namespace Registry

section

variable {h k : Heap} {ties : Ties} {r s : Registry} {a b : Ref}

theorem Resembles.size (same : r.Resembles (Tied ties) s) : r.size = s.size := by
  simpa [Registry.size] using same.modules.length_eq

theorem Resembles.get? (same : r.Resembles (Tied ties) s) (id : ModuleId) :
    Option.Rel (Module.Resembles (Tied ties)) (r.get? id) (s.get? id) := by
  simpa [Registry.get?] using forall₂_getElem? same.modules id

theorem Resembles.cellOf (same : r.Resembles (Tied ties) s) (id : ModuleId) :
    Tied ties (r.cellOf id) (s.cellOf id) := by
  have modules := same.get? id
  unfold Registry.cellOf
  generalize r.get? id = first, s.get? id = second at modules
  cases modules with
  | none => exact .null ties
  | some found => exact found.cell

theorem Resembles.nameOf (same : r.Resembles (Tied ties) s) (id : ModuleId) :
    Tied ties (r.nameOf id) (s.nameOf id) := by
  have modules := same.get? id
  unfold Registry.nameOf
  generalize r.get? id = first, s.get? id = second at modules
  cases modules with
  | none => exact .null ties
  | some found => exact found.name

theorem Resembles.value? (same : r.Resembles (Tied ties) s) (twins : h.Twins ties k)
    (id : ModuleId) (tied : Tied ties a b) :
    Option.Rel (Tied ties) (r.value? id a) (s.value? id b) := by
  have modules := same.get? id
  unfold Registry.value?
  generalize r.get? id = first, s.get? id = second at modules
  cases modules with
  | none => exact .none
  | some found =>
      exact Assoc.lookup_rel (fun _ _ _ _ tied tied' => twins.eq_iff tied tied') found.values tied

theorem Resembles.function? (same : r.Resembles (Tied ties) s) (twins : h.Twins ties k)
    (id : ModuleId) (tied : Tied ties a b) :
    Option.Rel (Tied ties) (r.function? id a) (s.function? id b) := by
  have modules := same.get? id
  unfold Registry.function?
  generalize r.get? id = first, s.get? id = second at modules
  cases modules with
  | none => exact .none
  | some found =>
      exact Assoc.lookup_rel (fun _ _ _ _ tied tied' => twins.eq_iff tied tied') found.functions tied

theorem Resembles.find? (same : r.Resembles (Tied ties) s) (twins : h.Twins ties k)
    (tied : Tied ties a b) : r.find? a = s.find? b := by
  have found := Assoc.lookup_rel (fun _ _ _ _ tied tied' => twins.eq_iff tied tied') same.byName tied
  unfold Registry.find?
  generalize Assoc.lookup a r.byName = first, Assoc.lookup b s.byName = second at found
  cases found with
  | none => rfl
  | some eq => rw [eq]

/-- Changing a module keeps its name. -/
theorem names_modify (modules : Array Module) (id : ModuleId) {f : Module → Module}
    (keeps : ∀ m, (f m).name = m.name) :
    (modules.modify id f).toList.map Module.name = modules.toList.map Module.name := by
  rw [Array.toList_modify]
  induction modules.toList generalizing id with
  | nil => rw [List.modify_nil]
  | cons head rest ih =>
      cases id with
      | zero => simp [keeps]
      | succ id => simp [ih id]

theorem Resembles.modify (same : r.Resembles (Tied ties) s) (id : ModuleId) {f g : Module → Module}
    (keeps : ∀ m, (f m).name = m.name) (keeps' : ∀ m, (g m).name = m.name)
    (new : ∀ m n, m.Resembles (Tied ties) n → (f m).Resembles (Tied ties) (g n)) :
    { r with modules := r.modules.modify id f }.Resembles (Tied ties)
      { s with modules := s.modules.modify id g } where
  modules := by
    simp only [Array.toList_modify]
    exact forall₂_modify same.modules id new
  byName := same.byName
  named₁ := by
    intro p member
    rw [names_modify r.modules id keeps]
    exact same.named₁ p member
  named₂ := by
    intro p member
    rw [names_modify s.modules id keeps']
    exact same.named₂ p member

theorem Resembles.bindValue (same : r.Resembles (Tied ties) s) (twins : h.Twins ties k)
    (id : ModuleId) {symbol symbol' : Ref} (names : Tied ties symbol symbol') (tied : Tied ties a b) :
    (r.bindValue id symbol a).Resembles (Tied ties) (s.bindValue id symbol' b) := by
  refine same.modify id (fun _ => rfl) (fun _ => rfl) fun m n both => ⟨both.name, both.cell, ?_, both.functions⟩
  exact Assoc.insert_rel (fun _ _ _ _ tied tied' => twins.eq_iff tied tied') both.values names tied

theorem Resembles.bindFunction (same : r.Resembles (Tied ties) s) (twins : h.Twins ties k)
    (id : ModuleId) {symbol symbol' : Ref} (names : Tied ties symbol symbol') (tied : Tied ties a b) :
    (r.bindFunction id symbol a).Resembles (Tied ties) (s.bindFunction id symbol' b) := by
  refine same.modify id (fun _ => rfl) (fun _ => rfl) fun m n both => ⟨both.name, both.cell, both.values, ?_⟩
  exact Assoc.insert_rel (fun _ _ _ _ tied tied' => twins.eq_iff tied tied') both.functions names tied

theorem named_add {r : Registry} (named : ∀ p ∈ r.byName, p.1 ∈ r.modules.toList.map Module.name)
    (name cell : Ref) :
    ∀ p ∈ (r.add name cell).byName, p.1 ∈ (r.add name cell).modules.toList.map Module.name := by
  intro p member
  simp only [Registry.add, Array.toList_push, List.map_append, List.mem_append]
  rcases Assoc.mem_insert member with rfl | inside
  · exact Or.inr (by simp)
  · exact Or.inl (named p inside)

theorem Resembles.add (same : r.Resembles (Tied ties) s) (twins : h.Twins ties k)
    {name name' : Ref} (names : Tied ties name name') (cells : Tied ties a b) :
    (r.add name a).Resembles (Tied ties) (s.add name' b) where
  modules := by
    simp only [Registry.add, Array.toList_push]
    exact forall₂_append same.modules (.cons ⟨names, cells, .nil, .nil⟩ .nil)
  byName := by
    refine Assoc.insert_rel (fun _ _ _ _ tied tied' => twins.eq_iff tied tied') same.byName names ?_
    exact same.size
  named₁ := named_add same.named₁ name a
  named₂ := named_add same.named₂ name' b

end

end Registry

/-! ## Printing -/

namespace Printer

variable {h k : Heap} {r s : Registry} {ties all : Ties}

theorem scalar_twins (twins : h.Twins ties k) (modules : r.Resembles (Tied ties) s)
    {first second : Scalar} (same : first.Resembles (Tied ties) second) :
    scalar h r first = scalar k s second := by
  cases same with
  | integer value => rfl
  | symbol name => rfl
  | builtin builtin => rfl
  | function code => simp only [scalar, nameOr, twins.symbol? code.name]
  | expander code => simp only [scalar, nameOr, twins.symbol? code.name]
  | moduleCell id => simp only [scalar, nameOr, twins.symbol? (modules.nameOf id)]

theorem leaf_twins (twins : h.Twins ties k) (modules : r.Resembles (Tied ties) s) {a b : Ref}
    (tied : Tied ties a b) : leaf h r a = leaf k s b := by
  have cells := twins.cell? tied
  unfold leaf
  rw [twins.isNull tied]
  generalize h.cell? a = first, k.cell? b = second at cells
  cases cells with
  | none => rfl
  | some same =>
      cases same with
      | pair _ _ => rfl
      | scalar contents => simp only [scalar_twins twins modules contents]

/-- Writing tied values under the same bound. -/
theorem write_twins (twins : h.Twins ties k) (modules : r.Resembles (Tied ties) s) (bound : Nat)
    {a b : Ref} (tied : Tied ties a b) (out : String) :
    write h r bound out a = write k s bound out b ∧
      writeRest h r bound out a = writeRest k s bound out b := by
  induction bound generalizing a b out with
  | zero => simp only [write, writeRest, and_self]
  | succ bound ih =>
      have parts := twins.pair? tied
      cases halves : h.pair? a with
      | some pair =>
          rw [halves] at parts
          cases halves' : k.pair? b with
          | none =>
              rw [halves'] at parts
              cases parts
          | some pair' =>
              rw [halves'] at parts
              cases parts with
              | some both =>
                  rw [write_pair halves, write_pair halves', writeRest_pair halves,
                    writeRest_pair halves', (ih both.1 _).1, (ih both.1 _).1]
                  constructor <;> refine Option.bind_congr fun begun _ => (ih both.2 begun).2
      | none =>
          rw [halves] at parts
          cases halves' : k.pair? b with
          | some pair' =>
              rw [halves'] at parts
              cases parts
          | none =>
              refine ⟨?_, ?_⟩
              · rw [write_leaf halves, write_leaf halves', leaf_twins twins modules tied]
              · rcases tied with ⟨rfl, rfl⟩ | member
                · rw [writeRest_null, writeRest_null]
                · obtain ⟨live, live'⟩ := twins.paired.live member
                  rw [writeRest_leaf live.ne_null halves, writeRest_leaf live'.ne_null halves',
                    (ih (Or.inr member) _).1]

end Printer

namespace Machine

variable {sized : Bool} {ties : Ties} {m n : Machine} {a b : Ref}

theorem Twins.heap (twins : m.Twins sized ties n) : m.heap.Twins ties n.heap := twins.store.heap

/-- Tied values print in the same way. -/
theorem Twins.display (twins : m.Twins sized ties n) (tied : Tied ties a b) : m.display a = n.display b := by
  have enough : m.heap.cells.size + 2 ≤ m.heap.cells.size + n.heap.cells.size + 2 := by omega
  have enough' : n.heap.cells.size + 2 ≤ m.heap.cells.size + n.heap.cells.size + 2 := by omega
  unfold Machine.display Printer.display
  rw [← Printer.write_eq enough, ← Printer.write_eq enough',
    (Printer.write_twins twins.heap twins.registry _ tied "").1]

theorem Twins.codeName (twins : m.Twins sized ties n) {c d : Code} (same : c.Resembles (Tied ties) d) :
    m.codeName c = n.codeName d := by
  simp only [Machine.codeName, Printer.nameOr, twins.heap.symbol? same.name]

theorem Twins.homeOf (twins : m.Twins sized ties n) {c d : Code} (same : c.Resembles (Tied ties) d) :
    m.homeOf c = n.homeOf d := by
  have scalars := twins.heap.scalar? same.home
  unfold Machine.homeOf
  rw [twins.user]
  generalize m.heap.scalar? c.home = first, n.heap.scalar? d.home = second at scalars
  cases scalars with
  | none => rfl
  | some scalar => cases scalar <;> rfl

theorem Twins.typeError (twins : m.Twins sized ties n) (function expected : String)
    (tied : Tied ties a b) : m.typeError function expected a = n.typeError function expected b := by
  rw [Machine.typeError, Machine.typeError, twins.display tied]

theorem Twins.boolean (twins : m.Twins sized ties n) (value : Bool) :
    Tied ties (m.boolean value) (n.boolean value) := by
  cases value with
  | true => exact twins.truth
  | false => exact .null ties

theorem Twins.depth (twins : m.Twins sized ties n) : m.depth = n.depth := by
  simpa [Machine.depth] using twins.callers.length_eq

end Machine

end LispMachine
