import LispMachine.Proofs.Compiler.Form

/-!
# The layout of code

`Lays` says where the instructions of a syntax tree stand in finished code and
which variable slots they use. It is said of the words and constants of the code
as they are, without the compiler: branches have their targets, and nothing is
left to be patched.
-/

namespace LispMachine

/-! ## Scopes as name lists -/

/-- Names with their slots, the newest first, after reading locals that start at a
    slot. -/
def namesFrom (slot : Nat) : List (Option Ref) → List (Ref × Nat) → List (Ref × Nat)
  | [], names => names
  | none :: rest, names => namesFrom (slot + 1) rest names
  | some name :: rest, names => namesFrom (slot + 1) rest ((name, slot) :: names)

/-- The names in force and their slots, in the order in which they are looked up. -/
def Scope.names (s : Scope) : List (Ref × Nat) :=
  namesFrom s.arguments.size s.locals.toList s.arguments.toList.zipIdx

theorem namesFrom_append (slot : Nat) (locals more : List (Option Ref)) (names : List (Ref × Nat)) :
    namesFrom slot (locals ++ more) names =
      namesFrom (slot + locals.length) more (namesFrom slot locals names) := by
  induction locals generalizing slot names with
  | nil => rfl
  | cons head rest ih =>
      cases head <;> simp only [List.cons_append, namesFrom, ih, List.length_cons,
        Nat.add_assoc, Nat.add_comm 1]

theorem namesFrom_blank (slot count : Nat) (names : List (Ref × Nat)) :
    namesFrom slot (List.replicate count none) names = names := by
  induction count generalizing slot with
  | zero => rfl
  | succ count ih => exact ih (slot + 1)

theorem namesFrom_some (slot : Nat) (bound : List Ref) (names : List (Ref × Nat)) :
    namesFrom slot (bound.map some) names = (bound.zipIdx slot).reverse ++ names := by
  induction bound generalizing slot names with
  | nil => rfl
  | cons name rest ih => simp [namesFrom, ih]

theorem lookup_zipIdx (name : Ref) (arguments : List Ref) (slot : Nat) :
    Assoc.lookup name (arguments.zipIdx slot) =
      (arguments.findIdx? fun argument => argument = name).map (· + slot) := by
  induction arguments generalizing slot with
  | nil => rfl
  | cons argument rest ih =>
      by_cases same : argument = name
      · simp [Assoc.lookup, List.findIdx?_cons, same]
      · simp only [List.zipIdx_cons, Assoc.lookup, same, if_false, ih, List.findIdx?_cons,
          decide_false]
        cases rest.findIdx? (fun argument => argument = name) with
        | none => rfl
        | some position => simp [Nat.add_assoc, Nat.add_comm 1]

theorem lookup_namesFrom (s : Scope) (name : Ref) (slot count : Nat) (names : List (Ref × Nat)) :
    Assoc.lookup name (namesFrom slot (s.locals.toList.take count) names) =
      match s.lastLocal name count with
      | some position => some (slot + position)
      | none => Assoc.lookup name names := by
  induction count with
  | zero => rfl
  | succ count ih =>
      simp only [Scope.lastLocal, ← Array.getElem?_toList]
      cases found : s.locals.toList[count]? with
      | none =>
          have short : s.locals.toList.length ≤ count := List.getElem?_eq_none_iff.1 found
          rw [List.take_of_length_le (by omega)]
          rw [List.take_of_length_le short] at ih
          exact ih
      | some held =>
          have long : count < s.locals.toList.length := (List.getElem?_eq_some_iff.1 found).1
          rw [List.take_add_one, found, Option.toList_some, namesFrom_append, List.length_take,
            Nat.min_eq_left (by omega)]
          cases held with
          | none => exact ih
          | some other =>
              dsimp only [namesFrom, Assoc.lookup]
              by_cases same : other = name
              · simp only [same, if_true]
              · simp only [same, if_false, ih]

/-- Resolving a name in a scope is looking it up in the list of names. -/
theorem Scope.resolve_eq (s : Scope) (name : Ref) :
    s.resolve name = Assoc.lookup name s.names := by
  have whole := lookup_namesFrom s name s.arguments.size s.locals.size s.arguments.toList.zipIdx
  rw [List.take_of_length_le (by simp)] at whole
  rw [names, whole, resolve]
  cases s.lastLocal name s.locals.size with
  | some position => rfl
  | none =>
      rcases s with ⟨⟨arguments⟩, takesRest, locals⟩
      simp [lookup_zipIdx, List.findIdx?_toArray]

/-- The slots of the bindings that have an initial value, when the first binding has
    the given slot. -/
def storeSlots {α : Type} (slot : Nat) : List (Ref × Option α) → List Nat
  | [] => []
  | (_, none) :: rest => storeSlots (slot + 1) rest
  | (_, some _) :: rest => slot :: storeSlots (slot + 1) rest

/-- The names of bindings with their slots, in front of a scope. -/
def scopeWith {α : Type} (slot : Nat) (bindings : List (Ref × α)) (scope : List (Ref × Nat)) :
    List (Ref × Nat) :=
  ((bindings.map Prod.fst).zipIdx slot).reverse ++ scope

theorem mem_storeSlots {α : Type} {bindings : List (Ref × Option α)} {n slot : Nat}
    (member : slot ∈ storeSlots n bindings) : slot < n + bindings.length := by
  induction bindings generalizing n with
  | nil => cases member
  | cons binding bindings ih =>
      rcases binding with ⟨_, _ | _⟩
      · have _ := ih (n := n + 1) member
        simp only [List.length_cons]
        omega
      · simp only [List.length_cons]
        rcases List.mem_cons.1 member with rfl | later
        · omega
        · have _ := ih (n := n + 1) later
          omega

/-- Every slot of the scope is one of the first `n`. -/
def Below (scope : List (Ref × Nat)) (n : Nat) : Prop := ∀ entry ∈ scope, entry.2 < n

theorem Below.later {scope : List (Ref × Nat)} {n n' : Nat} (below : Below scope n) (le : n ≤ n') :
    Below scope n' :=
  fun entry member => Nat.lt_of_lt_of_le (below entry member) le

theorem Below.scopeWith {α : Type} {scope : List (Ref × Nat)} {n : Nat} (below : Below scope n)
    (bindings : List (Ref × α)) : Below (scopeWith n bindings scope) (n + bindings.length) := by
  intro entry member
  rcases List.mem_append.1 member with new | old
  · have bounds := (List.mem_zipIdx (List.mem_reverse.1 new)).2.1
    simpa using bounds
  · have _ := below entry old
    omega

/-! ## Layout -/

section

variable (code : Code)

/-- Stores into the given slots, one after the other. -/
inductive LaysStores : List Nat → Nat → Nat → Prop where
  | nil (pc : Nat) : LaysStores [] pc pc
  | cons {slot pc pc' : Nat} {slots : List Nat} : code.fetch pc = .ok (.storeLocal, slot) →
      LaysStores slots (pc + 2) pc' → LaysStores (slot :: slots) pc pc'

mutual

/-- The code of a tree, in a scope that gives names their slots: it starts at an
    offset with some slots in use, and ends at an offset with perhaps more. -/
inductive Lays : List (Ref × Nat) → Form → Nat → Nat → Nat → Nat → Prop where
  | null {scope : List (Ref × Nat)} {pc n : Nat} : code.fetch pc = .ok (.pushNull, 0) →
      Lays scope .null pc n (pc + 1) n
  | constant {scope : List (Ref × Nat)} {value : Ref} {pc n index : Nat} :
      code.fetch pc = .ok (.pushConstant, index) → code.constants[index]? = some value →
      Lays scope (.constant value) pc n (pc + 2) n
  | localName {scope : List (Ref × Nat)} {symbol : Ref} {pc n slot : Nat} :
      Assoc.lookup symbol scope = some slot → code.fetch pc = .ok (.loadLocal, slot) →
      Lays scope (.name symbol) pc n (pc + 2) n
  | moduleName {scope : List (Ref × Nat)} {symbol : Ref} {pc n index : Nat} :
      Assoc.lookup symbol scope = none → code.fetch pc = .ok (.pushConstant, index) →
      code.constants[index]? = some symbol → code.fetch (pc + 2) = .ok (.loadModuleValue, 0) →
      Lays scope (.name symbol) pc n (pc + 3) n
  | function {scope : List (Ref × Nat)} {symbol : Ref} {pc n index : Nat} :
      code.fetch pc = .ok (.pushConstant, index) → code.constants[index]? = some symbol →
      code.fetch (pc + 2) = .ok (.loadModuleFunction, 0) →
      Lays scope (.function symbol) pc n (pc + 3) n
  | choice {scope : List (Ref × Nat)} {condition consequence alternative : Form}
      {pc n pc₁ n₁ pc₂ n₂ pc₃ n₃ : Nat} :
      Lays scope condition pc n pc₁ n₁ → code.fetch pc₁ = .ok (.branchIfNull, pc₂ + 2) →
      Lays scope consequence (pc₁ + 2) n₁ pc₂ n₂ → code.fetch pc₂ = .ok (.branch, pc₃) →
      Lays scope alternative (pc₂ + 2) n₂ pc₃ n₃ →
      Lays scope (.choice condition consequence alternative) pc n pc₃ n₃
  | sequence {scope : List (Ref × Nat)} {first rest : Form} {pc n pc₁ n₁ pc₂ n₂ : Nat} :
      Lays scope first pc n pc₁ n₁ → code.fetch pc₁ = .ok (.pop, 0) →
      Lays scope rest (pc₁ + 1) n₁ pc₂ n₂ → Lays scope (.sequence first rest) pc n pc₂ n₂
  | bind {scope : List (Ref × Nat)} {bindings : List (Ref × Option Form)} {body : Form}
      {pc n pc₁ n₁ pc₂ pc₃ n₃ : Nat} :
      LaysIn scope bindings pc n pc₁ n₁ → LaysStores code (storeSlots n₁ bindings).reverse pc₁ pc₂ →
      Lays (scopeWith n₁ bindings scope) body pc₂ (n₁ + bindings.length) pc₃ n₃ →
      Lays scope (.bind bindings body) pc n pc₃ n₃
  | call {scope : List (Ref × Nat)} {callee : Form} {args : List Form}
      {pc n pc₁ n₁ pc₂ n₂ : Nat} :
      Lays scope callee pc n pc₁ n₁ → LaysEach scope args pc₁ n₁ pc₂ n₂ →
      code.fetch pc₂ = .ok (.call, args.length) →
      Lays scope (.call callee args) pc n (pc₂ + 2) n₂

/-- The code of trees, one after the other. -/
inductive LaysEach : List (Ref × Nat) → List Form → Nat → Nat → Nat → Nat → Prop where
  | nil {scope : List (Ref × Nat)} (pc n : Nat) : LaysEach scope [] pc n pc n
  | cons {scope : List (Ref × Nat)} {form : Form} {forms : List Form}
      {pc n pc₁ n₁ pc₂ n₂ : Nat} :
      Lays scope form pc n pc₁ n₁ → LaysEach scope forms pc₁ n₁ pc₂ n₂ →
      LaysEach scope (form :: forms) pc n pc₂ n₂

/-- The code of the initial values of bindings. -/
inductive LaysIn :
    List (Ref × Nat) → List (Ref × Option Form) → Nat → Nat → Nat → Nat → Prop where
  | nil {scope : List (Ref × Nat)} (pc n : Nat) : LaysIn scope [] pc n pc n
  | blank {scope : List (Ref × Nat)} {symbol : Ref} {bindings : List (Ref × Option Form)}
      {pc n pc₁ n₁ : Nat} : LaysIn scope bindings pc n pc₁ n₁ →
      LaysIn scope ((symbol, none) :: bindings) pc n pc₁ n₁
  | initial {scope : List (Ref × Nat)} {symbol : Ref} {form : Form}
      {bindings : List (Ref × Option Form)} {pc n pc₁ n₁ pc₂ n₂ : Nat} :
      Lays scope form pc n pc₁ n₁ → LaysIn scope bindings pc₁ n₁ pc₂ n₂ →
      LaysIn scope ((symbol, some form) :: bindings) pc n pc₂ n₂

end

end

section

variable {code : Code}

theorem LaysStores.le {slots : List Nat} {pc pc' : Nat} (laid : LaysStores code slots pc pc') :
    pc ≤ pc' := by
  induction laid with
  | nil => exact Nat.le_refl _
  | cons _ _ ih => omega

mutual

/-- Code is not empty, and slots are given out, never taken back. -/
theorem Lays.bounds {scope : List (Ref × Nat)} {form : Form} {pc n pc' n' : Nat}
    (laid : Lays code scope form pc n pc' n') :
    pc < pc' ∧ n ≤ n' := by
  cases laid with
  | null _ => omega
  | constant _ _ => omega
  | localName _ _ => omega
  | moduleName _ _ _ _ => omega
  | function _ _ _ => omega
  | choice first _ second _ third =>
      have _ := first.bounds
      have _ := second.bounds
      have _ := third.bounds
      omega
  | sequence first _ second =>
      have _ := first.bounds
      have _ := second.bounds
      omega
  | bind values stores body =>
      have _ := values.bounds
      have _ := stores.le
      have _ := body.bounds
      omega
  | call callee args _ =>
      have _ := callee.bounds
      have _ := args.bounds
      omega

theorem LaysEach.bounds {scope : List (Ref × Nat)} {forms : List Form} {pc n pc' n' : Nat}
    (laid : LaysEach code scope forms pc n pc' n') :
    pc ≤ pc' ∧ n ≤ n' := by
  cases laid with
  | nil => omega
  | cons first rest =>
      have _ := first.bounds
      have _ := rest.bounds
      omega

theorem LaysIn.bounds {scope : List (Ref × Nat)} {bindings : List (Ref × Option Form)}
    {pc n pc' n' : Nat}
    (laid : LaysIn code scope bindings pc n pc' n') : pc ≤ pc' ∧ n ≤ n' := by
  cases laid with
  | nil => omega
  | blank rest => exact rest.bounds
  | initial first rest =>
      have _ := first.bounds
      have _ := rest.bounds
      omega

end

end

end LispMachine
