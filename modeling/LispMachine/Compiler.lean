import LispMachine.Draft
import LispMachine.Machine

/-!
# The compiler

Compiles a form in a single pass. The code of an expression leaves one value on
the work stack. Macro calls are expanded by running the macro on the machine,
and the expansion is compiled in place of the call; expansions nest at most
`maxMacroDepth` deep.

A macro may allocate cells while the forms around its call are being compiled,
and a handle in such a form may name one of them. So the heap at the start says
nothing about how deep a form goes, and the walk is bounded by fuel.
-/

namespace LispMachine

/-- What a compilation works on: the machine and the function in progress. -/
structure Workbench where
  machine : Machine
  draft : Draft

/-- A step of a compilation. -/
abbrev Compile (α : Type) := EStateM (Stop CompileError) Workbench α

/-- Runs the code of a macro on argument forms. -/
abbrev Expand := Code → List Ref → Action RuntimeError Ref

/-- How deep expansions may nest inside one form. -/
def maxMacroDepth : Nat := 64

namespace Compile

/-- Fails. -/
@[inline] def fail {α : Type} (error : CompileError) : Compile α := throw (.failed error)

/-- Changes the draft. -/
@[inline] def modifyDraft (f : Draft → Draft) : Compile Unit := fun w =>
  match w with
  | ⟨machine, draft⟩ => .ok () ⟨machine, f draft⟩

/-- Changes the draft and takes a result from it. -/
@[inline] def onDraft {α : Type} (f : Draft → α × Draft) : Compile α := fun w =>
  match w with
  | ⟨machine, draft⟩ =>
      match f draft with
      | (value, draft) => .ok value ⟨machine, draft⟩

/-- Changes the machine. -/
@[inline] def modifyMachine (f : Machine → Machine) : Compile Unit := fun w =>
  match w with
  | ⟨machine, draft⟩ => .ok () ⟨f machine, draft⟩

/-- Carries out a machine computation; `f` words its failure. -/
@[inline] def onMachine {ε α : Type} (f : Machine → ε → CompileError) (action : Action ε α) :
    Compile α := fun w =>
  match w with
  | ⟨machine, draft⟩ =>
      match action machine with
      | .ok value machine => .ok value ⟨machine, draft⟩
      | .error (.failed e) machine => .error (.failed (f machine e)) ⟨machine, draft⟩
      | .error .outOfFuel machine => .error .outOfFuel ⟨machine, draft⟩

/-! ## Writing code -/

/-- Number of words written. -/
def position : Compile Nat := fun w => .ok w.draft.words.size w

/-- Writes an instruction without operand. -/
def emit (op : Opcode) : Compile Unit := modifyDraft fun d => d.write (op.encode [])

/-- Writes an instruction with its operand, unless the operand is too large. -/
def emitWith (op : Opcode) (operand : Nat) : Compile Unit := do
  if maxOperand < operand then fail (.operandOverflow op.mnemonic operand)
  else modifyDraft fun d => d.write (op.encode [operand])

/-- Writes a branch whose target is filled in later, and tells where it is. -/
def emitBranch (op : Opcode) : Compile Nat := do
  let here ← position
  emitWith op 9999
  return here

/-- Lets the branch written at an offset lead to the current position. -/
def land (branch : Nat) : Compile Unit := do
  let here ← position
  if maxOperand < here then fail (.operandOverflow "branch target" here)
  else modifyDraft fun d => d.patch branch here

/-- Writes the code that pushes a constant. -/
def emitConstant (cell : Ref) : Compile Unit := do
  let index ← onDraft fun d => d.addConstant cell
  emitWith .pushConstant index

/-! ## Taking forms apart -/

/-- Fails with the text of a form. -/
def failOn {α : Type} (error : String → CompileError) (form : Ref) : Compile α := fun w =>
  .error (.failed (error (w.machine.display form))) w

/-- The items of a proper list that is part of a form. A list that comes back to where it
    was takes more than any fuel. -/
def listOf (list form : Ref) (context : String) : Compile (List Ref) := fun w =>
  match w.machine.heap.items? list with
  | some items => .ok items w
  | none =>
      if w.machine.heap.isEndless list then .error .outOfFuel w
      else failOn (.improperList context) form w

/-- Fails unless a cell is a symbol. -/
def expectSymbol (cell : Ref) (context : String) : Compile Unit := fun w =>
  if w.machine.heap.isSymbol cell then .ok () w
  else failOn (.nonSymbolName context) cell w

/-- The name and the initial value of a binding: a symbol, a list of a symbol, or
    a list of a symbol and a form. -/
def parseBinding (form binding : Ref) : Compile (Ref × Option Ref) := do
  if (← get).machine.heap.isSymbol binding then return (binding, none)
  match ← listOf binding form "let binding" with
  | [name] => do
      expectSymbol name "let binding name"
      return (name, none)
  | [name, value] => do
      expectSymbol name "let binding name"
      return (name, some value)
  | _ => failOn (.malformedSpecialForm "let binding") binding

/-- The bindings of a list, newest first in front of `parsed`, then put back in
    order. -/
def parseBindings (form : Ref) : List Ref → List (Ref × Option Ref) →
    Compile (List (Ref × Option Ref))
  | [], parsed => return parsed.reverse
  | binding :: rest, parsed => do
      let binding ← parseBinding form binding
      parseBindings form rest (binding :: parsed)

/-! ## Expressions

Each function takes the way in which forms inside the expression are compiled. -/

/-- Compiles forms one after the other. -/
def emitEach (emitForm : Ref → Compile Unit) : List Ref → Compile Unit
  | [] => return ()
  | form :: rest => do
      emitForm form
      emitEach emitForm rest

/-- Compiles forms after the first of a body; the value before is dropped. -/
def emitMore (emitForm : Ref → Compile Unit) : List Ref → Compile Unit
  | [] => return ()
  | form :: rest => do
      emit .pop
      emitForm form
      emitMore emitForm rest

/-- Compiles a body, which has the value of its last form. -/
def emitBody (emitForm : Ref → Compile Unit) : List Ref → Compile Unit
  | [] => emit .pushNull
  | form :: rest => do
      emitForm form
      emitMore emitForm rest

/-- Compiles the initial values of bindings. -/
def emitValues (emitForm : Ref → Compile Unit) : List (Ref × Option Ref) → Compile Unit
  | [] => return ()
  | (_, none) :: rest => emitValues emitForm rest
  | (_, some value) :: rest => do
      emitForm value
      emitValues emitForm rest

/-- Stores the values on the work stack into slots. -/
def emitStores : List Nat → Compile Unit
  | [] => return ()
  | slot :: rest => do
      emitWith .storeLocal slot
      emitStores rest

/-- Compiles a symbol as a variable. -/
def emitVariable (symbol : Ref) : Compile Unit := do
  match (← get).draft.scope.resolve symbol with
  | some slot => emitWith .loadLocal slot
  | none => do
      emitConstant symbol
      emit .loadModuleValue

/-- Compiles `(quote x)`. -/
def emitQuote (form rest : Ref) : Compile Unit := do
  match ← listOf rest form "quote" with
  | [quoted] => emitConstant quoted
  | _ => failOn (.malformedSpecialForm "quote") form

/-- Compiles the three parts of a conditional. -/
def emitChoice (emitForm : Ref → Compile Unit) (condition consequence : Ref)
    (alternative : Option Ref) : Compile Unit := do
  emitForm condition
  let toAlternative ← emitBranch .branchIfNull
  emitForm consequence
  let toEnd ← emitBranch .branch
  land toAlternative
  match alternative with
  | some alternative => emitForm alternative
  | none => emit .pushNull
  land toEnd

/-- Compiles `(if condition consequence [alternative])`. -/
def emitIf (emitForm : Ref → Compile Unit) (form rest : Ref) : Compile Unit := do
  match ← listOf rest form "if" with
  | [condition, consequence] => emitChoice emitForm condition consequence none
  | [condition, consequence, alternative] =>
      emitChoice emitForm condition consequence (some alternative)
  | _ => failOn (.malformedSpecialForm "if") form

/-- Compiles `(let (binding...) body...)`: the initial values see the names
    outside only, and then all names are bound at once. -/
def emitLet (emitForm : Ref → Compile Unit) (form rest : Ref) : Compile Unit := do
  match ← listOf rest form "let" with
  | [] => failOn (.malformedSpecialForm "let") form
  | bindings :: body => do
      let bindings ← parseBindings form (← listOf bindings form "let binding list") []
      emitValues emitForm bindings
      let (mark, stores) ← onDraft fun ⟨scope, constants, words⟩ =>
        let mark := scope.mark
        let (scope, stores) := scope.bindAll bindings
        ((mark, stores), ⟨scope, constants, words⟩)
      emitStores stores
      emitBody emitForm body
      modifyDraft fun d => { d with scope := d.scope.release mark }

/-- Compiles a call: the function, the arguments from left to right, the call. -/
def emitCall (emitForm : Ref → Compile Unit) (form head rest : Ref) : Compile Unit := do
  let args ← listOf rest form "call"
  if (← get).machine.heap.isSymbol head then
    emitConstant head
    emit .loadModuleFunction
  else emitForm head
  emitEach emitForm args
  emitWith .call args.length

/-- The macro that a symbol is bound to in a module. -/
def macroOf? (m : Machine) (home : ModuleId) (head : Ref) : Option Code :=
  if m.heap.isSymbol head then
    match m.registry.function? home head with
    | some binding =>
        match m.heap.scalar? binding with
        | some (.expander code) => some code
        | _ => none
    | none => none
  else none

/-- A call of a macro: the whole form, its head, its rest and the macro. -/
structure MacroCall where
  form : Ref
  head : Ref
  rest : Ref
  code : Code

/-- Compiles a form, using up one unit of fuel for each level of nesting; `onMacro`
    compiles the macro calls. -/
def emitForm (home : ModuleId) (onMacro : MacroCall → Compile Unit) : Nat → Ref → Compile Unit
  | 0, _ => throw .outOfFuel
  | fuel + 1, form => do
      if form.isNull then emit .pushNull
      else
        match (← get).machine.heap.pair? form with
        | some (head, rest) => do
            match (← get).machine.heap.keyword? head with
            | some .quote => emitQuote form rest
            | some .if_ => emitIf (emitForm home onMacro fuel) form rest
            | some .let_ => emitLet (emitForm home onMacro fuel) form rest
            | _ => do
                match macroOf? (← get).machine home head with
                | some code => onMacro ⟨form, head, rest, code⟩
                | none => emitCall (emitForm home onMacro fuel) form head rest
        | none => do
            if (← get).machine.heap.isSymbol form then emitVariable form
            else emitConstant form

/-- Expands a macro call once. -/
def expandOnce (expand : Expand) (call : MacroCall) : Compile Ref := do
  let args ← listOf call.rest call.form "macro call"
  let expansion ← onMachine (fun m e => .macroExpansion (m.display call.head) e)
    (expand call.code args)
  modifyMachine fun m =>
    m.note .trace fun m => s!"expanded {m.display call.form} into {m.display expansion}"
  return expansion

/-- Compiles a form inside which expansions may nest `levels` deep. Every
    expansion is walked with the whole fuel. -/
def emitAt (home : ModuleId) (expand : Expand) (fuel : Nat) : Nat → Ref → Compile Unit
  | 0, form => emitForm home (fun _ => fail (.macroRecursion maxMacroDepth)) fuel form
  | levels + 1, form =>
      emitForm home
        (fun call => do
          let expansion ← expandOnce expand call
          emitAt home expand fuel levels expansion)
        fuel form

/-! ## Functions -/

/-- Binds the parameters of a function; `params` is the whole parameter list. -/
def bindParameters (params : Ref) : List Ref → Compile Unit
  | [] => return ()
  | name :: rest => do
      if (← get).machine.heap.keyword? name = some .rest then
        match rest with
        | [] => failOn (fun text => .malformedDefinition s!"&rest needs a name in {text}") params
        | [restName] => do
            expectSymbol restName "parameter"
            modifyDraft fun d =>
              { d with scope := { d.scope.addArgument restName with takesRest := true } }
        | _ =>
            failOn
              (fun text => .malformedDefinition
                s!"&rest name must be the last parameter in {text}")
              params
      else
        expectSymbol name "parameter"
        modifyDraft fun d => { d with scope := d.scope.addArgument name }
        bindParameters params rest

/-- Carries out a compilation on a fresh draft and finishes its code. -/
def toCode (name : Ref) (home : ModuleId) (work : Compile Unit) : Action CompileError Code :=
  fun m =>
    match work ⟨m, .empty⟩ with
    | .ok _ ⟨m, draft⟩ => .ok (draft.finish name (m.registry.cellOf home)) m
    | .error e ⟨m, _⟩ => .error e m

/-- Compiles a parameter list and a body. -/
def function (expand : Expand) (fuel : Nat) (home : ModuleId) (name params : Ref)
    (body : List Ref) : Action CompileError Code :=
  toCode name home do
    bindParameters params (← listOf params params "parameter list")
    emitBody (emitAt home expand fuel maxMacroDepth) body
    emit .ret

/-- Compiles an expression as a function without name and parameters. -/
def toplevel (expand : Expand) (fuel : Nat) (home : ModuleId) (form : Ref) :
    Action CompileError Code :=
  toCode .null home do
    emitAt home expand fuel maxMacroDepth form
    emit .ret

end Compile

end LispMachine
