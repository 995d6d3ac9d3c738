import LispMachine.Opcode
import LispMachine.Reader
import LispMachine.Text

/-!
# Failures of compilation and execution

A failure keeps what it is about, with values already in text form: the heap may
change before the failure is reported. The wording stands in the `message`
functions alone.
-/

namespace LispMachine

/-- Failure while running code or a native. -/
inductive RuntimeError where
  | unboundValue (symbol : String)
  | unboundFunction (symbol : String)
  | wrongArity (name : String) (expected : Arity) (got : Nat)
  | notCallable (value : String)
  | macroCall (name : String)
  | stackOverflow (limit : Nat)
  | stackUnderflow
  | returnFromTopLevel
  | emptyReturn (name : String)
  | typeError (function expected found : String)
  | unknownOpcode (word : UInt16) (pc : Nat)
  | truncatedInstruction (pc : Nat)
  | invalidOperand (op : Opcode) (operand pc : Nat)
  | integerOverflow (operation : String)
  | heap (error : HeapError)
deriving DecidableEq

/-- The wording of a failure at run time. -/
def RuntimeError.message : RuntimeError → String
  | .unboundValue symbol => s!"unbound value: {symbol}"
  | .unboundFunction symbol => s!"unbound function: {symbol}"
  | .wrongArity name expected got =>
      s!"wrong number of arguments to {name}: want={expected.label}, got={got}"
  | .notCallable value => s!"not a function: {value}"
  | .macroCall name => s!"macro {name} cannot be called at run time"
  | .stackOverflow limit => s!"stack overflow: frame limit of {limit} reached"
  | .stackUnderflow => "stack underflow"
  | .returnFromTopLevel => "return with no caller frame"
  | .emptyReturn name => s!"{name} returned without a value"
  | .typeError function expected found => s!"{function}: expected {expected}, got {found}"
  | .unknownOpcode word pc => s!"unknown opcode {word.toNat} at {Text.offset pc}"
  | .truncatedInstruction pc => s!"truncated instruction at {Text.offset pc}"
  | .invalidOperand op operand pc =>
      s!"{op.mnemonic} operand {operand} out of range at {Text.offset pc}"
  | .integerOverflow operation => s!"integer overflow in {operation}"
  | .heap error => error.message

/-- Failure while compiling a form. -/
inductive CompileError where
  | nonSymbolName (context form : String)
  | improperList (context form : String)
  | malformedSpecialForm (special form : String)
  | malformedDefinition (text : String)
  | operandOverflow (what : String) (index : Nat)
  | macroExpansion (name : String) (cause : RuntimeError)
  | macroRecursion (limit : Nat)
  | heap (error : HeapError)
deriving DecidableEq

/-- The wording of a failure at compile time. -/
def CompileError.message : CompileError → String
  | .nonSymbolName context form => s!"{context} must be a symbol, got {form}"
  | .improperList context form => s!"improper {context}: {form}"
  | .malformedSpecialForm special form => s!"malformed {special}: {form}"
  | .malformedDefinition text => s!"malformed definition: {text}"
  | .operandOverflow what index => s!"{what} operand {index} does not fit in a 16-bit word"
  | .macroExpansion name cause => s!"expanding macro {name} failed: {cause.message}"
  | .macroRecursion limit => s!"macro expansion nested deeper than {limit} levels"
  | .heap error => error.message

/-- Everything that can end the evaluation of one top-level form. -/
inductive EvalError where
  | read (error : ReadError)
  | compile (error : CompileError)
  | runtime (error : RuntimeError)
deriving DecidableEq

/-- The wording of a failed evaluation. -/
def EvalError.message : EvalError → String
  | .read error => s!"read error: {error.message}"
  | .compile error => s!"compile error: {error.message}"
  | .runtime error => s!"runtime error: {error.message}"

/-- How a bounded computation stops without a result: it fails, or its fuel ends
    before the answer is known. -/
inductive Stop (ε : Type) where
  | failed (error : ε)
  | outOfFuel
deriving DecidableEq

/-- Changes the kind of failure and leaves running out of fuel as it is. -/
def Stop.map {ε ε' : Type} (f : ε → ε') : Stop ε → Stop ε'
  | .failed error => .failed (f error)
  | .outOfFuel => .outOfFuel

/-- An allocation failure as the end of a run. -/
def RuntimeError.ofHeap (error : HeapError) : Stop RuntimeError := .failed (.heap error)

/-- An allocation failure as the end of an evaluation. -/
def EvalError.ofHeap (error : HeapError) : Stop EvalError := .failed (.runtime (.heap error))

end LispMachine
