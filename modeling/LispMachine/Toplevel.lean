import LispMachine.Compiler
import LispMachine.Machine.Step

/-!
# The top level

Definitions, modules and expressions, and the evaluation of whole texts. A form
that fails leaves the stack of frames as it was, so the next form starts from a
clean state.

Evaluation is bounded by fuel: it limits the steps of every run, how deeply forms
may be nested, and how deeply natives may re-enter the machine.
-/

namespace LispMachine

namespace Machine

/-- Carries out a computation under another kind of failure. -/
@[inline] def wrap {ε ε' α : Type} (f : ε → ε') (action : Action ε α) : Action ε' α := fun m =>
  match action m with
  | .ok value m => .ok value m
  | .error e m => .error (e.map f) m

/-- Fails with the text of a definition. -/
def malformedDefinition {α : Type} (form : Ref) : Action EvalError α := fun m =>
  .error (.failed (.compile (.malformedDefinition (m.display form)))) m

/-- The items of a definition. A list that comes back to where it was takes more than any
    fuel. -/
def definitionParts (form : Ref) : Action EvalError (List Ref) := fun m =>
  match m.heap.items? form with
  | some parts => .ok parts m
  | none => if m.heap.isEndless form then .error .outOfFuel m else malformedDefinition form m

/-- Fails unless the name of a definition is a symbol. -/
def expectName (name : Ref) (context : String) : Action EvalError Unit := fun m =>
  if m.heap.isSymbol name then .ok () m
  else .error (.failed (.compile (.nonSymbolName context (m.display name)))) m

/-- Binds freshly compiled code, and records the name for `takeDefinitions`. -/
def define (home : ModuleId) (name cell : Ref) (m : Machine) : Machine :=
  let known := (m.registry.function? home name).isSome
  let m := m.bindFunction home name cell
  let m := if known then m.note .warn fun m => s!"redefining {m.display name}" else m
  let m := m.note .debug fun m => s!"defined {m.display cell}"
  if m.defined.contains (home, name) then m
  else { m with defined := m.defined.push (home, name) }

/-- Evaluates `(defun name (params) body...)` or `(defmacro ...)`; `wrapCode` makes
    the cell. -/
def evalDefinition (host : Host) (fuel : Nat) (wrapCode : Code → Scalar) (home : ModuleId)
    (form : Ref) : Action EvalError Ref := do
  match ← definitionParts form with
  | _ :: name :: params :: body => do
      expectName name "function name"
      let code ← wrap .compile (Compile.function (expandWith host fuel) fuel home name params body)
      let cell ← onHeap EvalError.ofHeap (Heap.allocScalar (wrapCode code))
      modify (define home name cell)
      return name
  | _ => malformedDefinition form

/-- Evaluates an expression by compiling it and calling the code. -/
def evalExpression (host : Host) (fuel : Nat) (home : ModuleId) (form : Ref) :
    Action EvalError Ref := do
  let code ← wrap .compile (Compile.toplevel (expandWith host fuel) fuel home form)
  let cell ← onHeap EvalError.ofHeap (Heap.allocScalar (.function code))
  wrap .runtime (applyWith host fuel cell [])

/-- Binds a variable. -/
def defineVariable (home : ModuleId) (name value : Ref) : Action EvalError Ref := do
  modify fun m => m.bindValue home name value
  modify fun m => m.note .debug fun m => s!"defvar {m.display name} = {m.display value}"
  return name

/-- Evaluates `(defvar name [expression])`. -/
def evalVariable (host : Host) (fuel : Nat) (home : ModuleId) (form : Ref) :
    Action EvalError Ref := do
  match ← definitionParts form with
  | [_, name] => do
      expectName name "variable name"
      defineVariable home name .null
  | [_, name, value] => do
      expectName name "variable name"
      let value ← evalExpression host fuel home value
      defineVariable home name value
  | _ => malformedDefinition form

/-- Evaluates forms one after the other for their effects. -/
def evalEach (evalForm : Ref → Action EvalError Ref) : List Ref → Action EvalError Unit
  | [] => return ()
  | form :: rest => do
      let _ ← evalForm form
      evalEach evalForm rest

/-- Evaluates `(module name form...)`; `evalIn` evaluates a form in a module. -/
def evalModule (evalIn : ModuleId → Ref → Action EvalError Ref) (form : Ref) :
    Action EvalError Ref := do
  match ← definitionParts form with
  | _ :: name :: body => do
      if (← get).heap.isSymbol name then
        let id ← ensureModule EvalError.ofHeap name
        evalEach (evalIn id) body
        return (← get).registry.cellOf id
      else malformedDefinition form
  | _ => malformedDefinition form

/-- The keyword at the head of a form. -/
def headKeyword? (m : Machine) (form : Ref) : Option Keyword :=
  match m.heap.car? form with
  | some head => m.heap.keyword? head
  | none => none

/-- Evaluates a form in a module. -/
def evalIn (host : Host) : Nat → ModuleId → Ref → Action EvalError Ref
  | 0, _, _ => throw .outOfFuel
  | fuel + 1, home, form => do
      match (← get).headKeyword? form with
      | some .defineFunction => evalDefinition host fuel .function home form
      | some .defineExpander => evalDefinition host fuel .expander home form
      | some .defineVariable => evalVariable host fuel home form
      | some .inModule => evalModule (evalIn host fuel) form
      | _ => evalExpression host fuel home form

/-- Takes note of a failure and of the frames it left. -/
def noteFailure (error : Stop EvalError) (m : Machine) : Machine :=
  match error with
  | .outOfFuel => m
  | .failed error =>
      let m := m.note .debug fun _ => s!"evaluation failed: {error.message}"
      if m.journal.keeps .debug then
        m.backtrace.foldl (fun m line => m.note .debug fun _ => s!"  {line}") m
      else m

/-- Drops every frame above the bottom one and trims the bottom work stack. -/
def unwindTo (height : Nat) (m : Machine) : Machine :=
  (m.truncate 1).modifyBottom fun stack => stack.drop (stack.length - height)

/-- Collects garbage if a cycle is due. -/
def collectIfDue (m : Machine) : Machine :=
  if m.config.collects && m.heap.isDue then m.collectGarbage.2 else m

/-- Evaluates one form in the module `user`. The form is kept on the bottom work
    stack, where a collection finds it. -/
def evalFormWith (host : Host) (fuel : Nat) (form : Ref) : Action EvalError Ref := fun m =>
  let height := m.bottom.stack.length
  let m := (m.modifyBottom fun stack => form :: stack).collectIfDue
  let user := m.user
  match evalIn host fuel user form m with
  | .ok value m => .ok value (m.unwindTo height)
  | .error e m => .error e ((m.noteFailure e).unwindTo height)

/-- The host of a machine. Each re-entry uses up one unit of fuel. -/
def serve : Nat → Request → Action RuntimeError Ref
  | 0, _, m => .error .outOfFuel m
  | fuel + 1, .apply callee args, m => applyWith (serve fuel) fuel callee args m
  | fuel + 1, .eval form, m =>
      match evalFormWith (serve fuel) fuel form m with
      | .ok value m => .ok value m
      | .error (.failed _) m => .ok .null m
      | .error .outOfFuel m => .error .outOfFuel m

/-- Evaluates one form in the module `user`. -/
def evalForm (fuel : Nat) (form : Ref) : Action EvalError Ref :=
  evalFormWith (serve fuel) fuel form

/-- Calls a value with arguments. -/
def apply (fuel : Nat) (callee : Ref) (args : List Ref) : Action RuntimeError Ref :=
  applyWith (serve fuel) fuel callee args

/-- Compiles an expression. -/
def compileToplevel (fuel : Nat) (home : ModuleId) (form : Ref) : Action CompileError Code :=
  Compile.toplevel (expandWith (serve fuel) fuel) fuel home form

/-- Compiles a function. -/
def compileFunction (fuel : Nat) (home : ModuleId) (name params : Ref) (body : List Ref) :
    Action CompileError Code :=
  Compile.function (expandWith (serve fuel) fuel) fuel home name params body

/-- Reads one form into the store of the machine. -/
def readForm (reader : Reader) (m : Machine) :
    Except ReadError (Option Ref) × Reader × Machine :=
  match m with
  | ⟨store, registry, top, callers, config, user, truth, defined, output, journal⟩ =>
      match Reader.read (reader, store) with
      | .ok form (reader, store) =>
          (.ok form, reader,
            ⟨store, registry, top, callers, config, user, truth, defined, output, journal⟩)
      | .error e (reader, store) =>
          (.error e, reader,
            ⟨store, registry, top, callers, config, user, truth, defined, output, journal⟩)

/-- What became of one form of a text. -/
abbrev FormResult := Except EvalError Ref

/-- Evaluates at most `count` forms; results are kept newest first in front of
    `results`. Values stay on the bottom work stack. -/
def evalForms (fuel : Nat) : Nat → Reader → List FormResult → Machine →
    Option (List FormResult × Machine)
  | 0, _, results, m => some (results, m)
  | count + 1, reader, results, m =>
      match readForm reader m with
      | (.ok none, _, m) => some (results, m)
      | (.error e, _, m) => some (.error (.read e) :: results, m)
      | (.ok (some form), reader, m) =>
          match evalForm fuel form m with
          | .ok value m =>
              evalForms fuel count reader (.ok value :: results)
                (m.modifyBottom fun stack => value :: stack)
          | .error (.failed e) m => evalForms fuel count reader (.error e :: results) m
          | .error .outOfFuel _ => none

/-- Evaluates every form of a text, up to the first that cannot be read. The
    values stay alive until all forms have run. None means that the fuel ended. -/
def evalText (fuel : Nat) (source : String) (m : Machine) :
    Option (List FormResult × Machine) :=
  let height := m.bottom.stack.length
  let reader := Reader.ofSource source
  match evalForms fuel (reader.ahead.length + 1) reader [] m with
  | none => none
  | some (results, m) =>
      some (results.reverse,
        m.modifyBottom fun stack => stack.drop (stack.length - height))

end Machine

end LispMachine
