import LispMachine.Compiler
import LispMachine.Proofs.Machine.Effect

/-!
# The meaning of forms

A form after macro expansion is a syntax tree, and the evaluator walks the tree:
it knows names and their values, and neither slots nor work stacks nor
instructions. A call leaves the walk and runs its callee on the machine.

`Expands` says which tree a form on the heap stands for, with every macro call on
the way expanded in the order in which the forms are met.
-/

namespace LispMachine

/-- A form after macro expansion. A function name stands at the head of a call
    only. -/
inductive Form where
  | null
  | constant (value : Ref)
  | name (symbol : Ref)
  | function (symbol : Ref)
  | choice (condition consequence alternative : Form)
  | sequence (first rest : Form)
  | bind (bindings : List (Ref × Option Form)) (body : Form)
  | call (callee : Form) (args : List Form)

namespace Form

/-! ## Evaluation -/

/-- Calls a value and takes its result; the callee runs above the current frame. -/
def callValue (host : Host) (fuel : Nat) (callee : Ref) (args : List Ref) :
    Action RuntimeError Ref := do
  let base := (← get).depth
  Machine.invoke host callee args
  Machine.run host base fuel
  Machine.pop

/-- The binding of a symbol, or a failure with the text of the symbol. -/
def boundOr (binding : Option Ref) (unbound : String → RuntimeError) (symbol : Ref) :
    Action RuntimeError Ref := fun m =>
  match binding with
  | some value => .ok value m
  | none => .error (.failed (unbound (m.display symbol))) m

mutual

/-- The value of a form in a module. The environment has the innermost names
    first. -/
def eval (host : Host) (fuel : Nat) (home : ModuleId) (env : List (Ref × Ref)) :
    Form → Action RuntimeError Ref
  | null => return .null
  | constant value => return value
  | name symbol => do
      match Assoc.lookup symbol env with
      | some value => return value
      | none => boundOr ((← get).registry.value? home symbol) .unboundValue symbol
  | function symbol => do
      boundOr ((← get).registry.function? home symbol) .unboundFunction symbol
  | choice condition consequence alternative => do
      let value ← condition.eval host fuel home env
      if value.isNull then alternative.eval host fuel home env
      else consequence.eval host fuel home env
  | sequence first rest => do
      let _ ← first.eval host fuel home env
      rest.eval host fuel home env
  | bind bindings body => do
      let bound ← evalBindings host fuel home env bindings
      body.eval host fuel home (bound.reverse ++ env)
  | call callee args => do
      let callee ← callee.eval host fuel home env
      let args ← evalEach host fuel home env args
      callValue host fuel callee args

/-- The values of forms, from left to right. -/
def evalEach (host : Host) (fuel : Nat) (home : ModuleId) (env : List (Ref × Ref)) :
    List Form → Action RuntimeError (List Ref)
  | [] => return []
  | form :: rest => do
      let value ← form.eval host fuel home env
      let values ← evalEach host fuel home env rest
      return value :: values

/-- The names of bindings with their initial values, from left to right. A name
    without an initial form starts as the empty list. -/
def evalBindings (host : Host) (fuel : Nat) (home : ModuleId) (env : List (Ref × Ref)) :
    List (Ref × Option Form) → Action RuntimeError (List (Ref × Ref))
  | [] => return []
  | (symbol, none) :: rest => do
      let bound ← evalBindings host fuel home env rest
      return (symbol, .null) :: bound
  | (symbol, some form) :: rest => do
      let value ← form.eval host fuel home env
      let bound ← evalBindings host fuel home env rest
      return (symbol, value) :: bound

end

/-- The environment in which a body starts: the parameters with their arguments,
    and the rest parameter with a list of the surplus ones. -/
def receive (params : List Ref) (rest : Option Ref) (args : List Ref) :
    Action RuntimeError (List (Ref × Ref)) := do
  match rest with
  | none => return params.zip args
  | some symbol => do
      let surplus ← Machine.onHeap RuntimeError.ofHeap (Heap.list (args.drop params.length))
      return params.zip args ++ [(symbol, surplus)]

/-- The value of a body for arguments. The caller waits in one frame, and the body is
    evaluated in another. -/
def apply (host : Host) (fuel : Nat) (home : ModuleId) (params : List Ref) (rest : Option Ref)
    (body : Form) (args : List Ref) : Action RuntimeError Ref := do
  Machine.enter (.waiting (← get).top.home)
  let env ← receive params rest args
  Machine.enter (.waiting home)
  body.eval host fuel home env

/-! ## Names -/

mutual

/-- Every name that a form looks up has the property. -/
def Named (p : Ref → Prop) : Form → Prop
  | null => True
  | constant _ => True
  | name symbol => p symbol
  | function symbol => p symbol
  | choice condition consequence alternative =>
      condition.Named p ∧ consequence.Named p ∧ alternative.Named p
  | sequence first rest => first.Named p ∧ rest.Named p
  | bind bindings body => NamedIn p bindings ∧ body.Named p
  | call callee args => callee.Named p ∧ NamedEach p args

/-- Every name that the forms look up has the property. -/
def NamedEach (p : Ref → Prop) : List Form → Prop
  | [] => True
  | form :: rest => form.Named p ∧ NamedEach p rest

/-- Every name that the initial forms look up has the property. -/
def NamedIn (p : Ref → Prop) : List (Ref × Option Form) → Prop
  | [] => True
  | (_, none) :: rest => NamedIn p rest
  | (_, some form) :: rest => form.Named p ∧ NamedIn p rest

end

mutual

theorem Named.mono {p q : Ref → Prop} (imp : ∀ r, p r → q r) :
    ∀ {form : Form}, form.Named p → form.Named q
  | null, _ => trivial
  | constant _, _ => trivial
  | name symbol, named => imp symbol named
  | function symbol, named => imp symbol named
  | choice _ _ _, ⟨first, second, third⟩ =>
      ⟨Named.mono imp first, Named.mono imp second, Named.mono imp third⟩
  | sequence _ _, ⟨first, second⟩ => ⟨Named.mono imp first, Named.mono imp second⟩
  | bind _ _, ⟨bindings, body⟩ => ⟨NamedIn.mono imp bindings, Named.mono imp body⟩
  | call _ _, ⟨callee, args⟩ => ⟨Named.mono imp callee, NamedEach.mono imp args⟩

theorem NamedEach.mono {p q : Ref → Prop} (imp : ∀ r, p r → q r) :
    ∀ {forms : List Form}, NamedEach p forms → NamedEach q forms
  | [], _ => trivial
  | _ :: _, ⟨first, rest⟩ => ⟨Named.mono imp first, NamedEach.mono imp rest⟩

theorem NamedIn.mono {p q : Ref → Prop} (imp : ∀ r, p r → q r) :
    ∀ {bindings : List (Ref × Option Form)}, NamedIn p bindings → NamedIn q bindings
  | [], _ => trivial
  | (_, none) :: rest, named => @NamedIn.mono p q imp rest named
  | (_, some _) :: _, ⟨first, rest⟩ => ⟨Named.mono imp first, NamedIn.mono imp rest⟩

end

mutual

theorem named_of_all {p : Ref → Prop} (all : ∀ r, p r) : ∀ form : Form, form.Named p
  | null => trivial
  | constant _ => trivial
  | name symbol => all symbol
  | function symbol => all symbol
  | choice first second third => ⟨named_of_all all first, named_of_all all second, named_of_all all third⟩
  | sequence first second => ⟨named_of_all all first, named_of_all all second⟩
  | bind bindings body => ⟨namedIn_of_all all bindings, named_of_all all body⟩
  | call callee args => ⟨named_of_all all callee, namedEach_of_all all args⟩

theorem namedEach_of_all {p : Ref → Prop} (all : ∀ r, p r) : ∀ forms : List Form, NamedEach p forms
  | [] => trivial
  | first :: rest => ⟨named_of_all all first, namedEach_of_all all rest⟩

theorem namedIn_of_all {p : Ref → Prop} (all : ∀ r, p r) :
    ∀ bindings : List (Ref × Option Form), NamedIn p bindings
  | [] => trivial
  | (_, none) :: rest => namedIn_of_all all rest
  | (_, some first) :: rest => ⟨named_of_all all first, namedIn_of_all all rest⟩

end

end Form

/-! ## Expansion -/

namespace Heap

/-- A binding on the heap: a symbol, a list of a symbol, or a list of a symbol and
    a form. -/
def binding? (h : Heap) (binding : Ref) : Option (Ref × Option Ref) :=
  if h.isSymbol binding then some (binding, none)
  else
    match h.items? binding with
    | some [name] => if h.isSymbol name then some (name, none) else none
    | some [name, value] => if h.isSymbol name then some (name, some value) else none
    | _ => none

/-- Parameter names on the heap, and the name after `&rest`. -/
def parameters? (h : Heap) : List Ref → Option (List Ref × Option Ref)
  | [] => some ([], none)
  | name :: more =>
      if h.keyword? name = some .rest then
        match more with
        | [rest] => if h.isSymbol rest then some ([], some rest) else none
        | _ => none
      else if h.isSymbol name then
        match h.parameters? more with
        | some (params, rest) => some (name :: params, rest)
        | none => none
      else none

end Heap

namespace Machine

/-- The form is a pair whose head is none of the special names. -/
def IsPlainPair (m : Machine) (form head rest : Ref) : Prop :=
  m.heap.pair? form = some (head, rest) ∧ m.heap.keyword? head ≠ some .quote ∧
    m.heap.keyword? head ≠ some .if_ ∧ m.heap.keyword? head ≠ some .let_

/-- The form is a pair whose head is a special name. -/
def IsSpecial (m : Machine) (form rest : Ref) (keyword : Keyword) : Prop :=
  ∃ head, m.heap.pair? form = some (head, rest) ∧ m.heap.keyword? head = some keyword

end Machine

open Machine

section

variable (home : ModuleId) (expand : Expand)

mutual

/-- The tree of a form on the heap. Macros run on the machine, so the machine after
    the expansion is part of the relation; the journal may take a note of each. -/
inductive Expands : Machine → Ref → Form → Machine → Prop where
  | null (m : Machine) : Expands m .null .null m
  | quote {m : Machine} {form rest quoted : Ref} : m.IsSpecial form rest .quote →
      m.heap.items? rest = some [quoted] → Expands m form (.constant quoted) m
  | choose {m m₁ m₂ m₃ : Machine} {form rest a b c : Ref}
      {condition consequence alternative : Form} :
      m.IsSpecial form rest .if_ → m.heap.items? rest = some [a, b, c] →
      Expands m a condition m₁ → Expands m₁ b consequence m₂ → Expands m₂ c alternative m₃ →
      Expands m form (.choice condition consequence alternative) m₃
  | chooseOrNull {m m₁ m₂ : Machine} {form rest a b : Ref} {condition consequence : Form} :
      m.IsSpecial form rest .if_ → m.heap.items? rest = some [a, b] →
      Expands m a condition m₁ → Expands m₁ b consequence m₂ →
      Expands m form (.choice condition consequence .null) m₂
  | bind {m m₁ m₂ : Machine} {form rest list : Ref} {items body : List Ref}
      {parsed : List (Ref × Option Ref)} {bindings : List (Ref × Option Form)} {inner : Form} :
      m.IsSpecial form rest .let_ → m.heap.items? rest = some (list :: body) →
      m.heap.items? list = some items → items.mapM m.heap.binding? = some parsed →
      ExpandsIn m parsed bindings m₁ → ExpandsBody m₁ body inner m₂ →
      Expands m form (.bind bindings inner) m₂
  | expansion {m m₁ m₂ : Machine} {form head rest expansion : Ref} {args : List Ref} {code : Code}
      {tree : Form} (journal : Journal) :
      m.IsPlainPair form head rest → Compile.macroOf? m home head = some code →
      m.heap.items? rest = some args → expand code args m = .ok expansion m₁ →
      Expands (m₁.withJournal journal) expansion tree m₂ → Expands m form tree m₂
  | callNamed {m m₁ : Machine} {form head rest : Ref} {items : List Ref} {args : List Form} :
      m.IsPlainPair form head rest → Compile.macroOf? m home head = none →
      m.heap.items? rest = some items → m.heap.isSymbol head = true →
      ExpandsEach m items args m₁ → Expands m form (.call (.function head) args) m₁
  | callValue {m m₁ m₂ : Machine} {form head rest : Ref} {items : List Ref} {callee : Form}
      {args : List Form} :
      m.IsPlainPair form head rest → Compile.macroOf? m home head = none →
      m.heap.items? rest = some items → m.heap.isSymbol head = false →
      Expands m head callee m₁ → ExpandsEach m₁ items args m₂ →
      Expands m form (.call callee args) m₂
  | name {m : Machine} {form : Ref} : m.heap.isSymbol form = true → Expands m form (.name form) m
  | constant {m : Machine} {form : Ref} : form ≠ .null → m.heap.pair? form = none →
      m.heap.isSymbol form = false → Expands m form (.constant form) m

/-- The trees of forms, expanded from left to right. -/
inductive ExpandsEach : Machine → List Ref → List Form → Machine → Prop where
  | nil (m : Machine) : ExpandsEach m [] [] m
  | cons {m m₁ m₂ : Machine} {item : Ref} {items : List Ref} {form : Form} {forms : List Form} :
      Expands m item form m₁ → ExpandsEach m₁ items forms m₂ →
      ExpandsEach m (item :: items) (form :: forms) m₂

/-- The trees of the initial forms of bindings, expanded from left to right. -/
inductive ExpandsIn :
    Machine → List (Ref × Option Ref) → List (Ref × Option Form) → Machine → Prop where
  | nil (m : Machine) : ExpandsIn m [] [] m
  | blank {m m₁ : Machine} {name : Ref} {parsed : List (Ref × Option Ref)}
      {bindings : List (Ref × Option Form)} : ExpandsIn m parsed bindings m₁ →
      ExpandsIn m ((name, none) :: parsed) ((name, none) :: bindings) m₁
  | initial {m m₁ m₂ : Machine} {name value : Ref} {form : Form}
      {parsed : List (Ref × Option Ref)} {bindings : List (Ref × Option Form)} :
      Expands m value form m₁ → ExpandsIn m₁ parsed bindings m₂ →
      ExpandsIn m ((name, some value) :: parsed) ((name, some form) :: bindings) m₂

/-- The tree of a body: its forms in sequence, or the empty list. -/
inductive ExpandsBody : Machine → List Ref → Form → Machine → Prop where
  | empty (m : Machine) : ExpandsBody m [] .null m
  | last {m m₁ : Machine} {item : Ref} {form : Form} : Expands m item form m₁ →
      ExpandsBody m [item] form m₁
  | more {m m₁ m₂ : Machine} {item next : Ref} {rest : List Ref} {form body : Form} :
      Expands m item form m₁ → ExpandsBody m₁ (next :: rest) body m₂ →
      ExpandsBody m (item :: next :: rest) (.sequence form body) m₂

end

end

end LispMachine
