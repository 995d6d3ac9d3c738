/-!
# Instructions

Code is a sequence of 16-bit words: an operation word, followed by one operand
word for the operations that take one.
-/

namespace LispMachine

/-- The operations of the machine. -/
inductive Opcode where
  | pushNull
  | pushConstant
  | loadLocal
  | storeLocal
  | loadModuleValue
  | loadModuleFunction
  | branch
  | branchIfNull
  | call
  | ret
  | pop
deriving DecidableEq, Inhabited

namespace Opcode

/-- Every operation, at the position given by its word. -/
def all : List Opcode :=
  [pushNull, pushConstant, loadLocal, storeLocal, loadModuleValue, loadModuleFunction,
    branch, branchIfNull, call, ret, pop]

/-- The word that encodes an operation. -/
def word : Opcode → UInt16
  | pushNull => 0
  | pushConstant => 1
  | loadLocal => 2
  | storeLocal => 3
  | loadModuleValue => 4
  | loadModuleFunction => 5
  | branch => 6
  | branchIfNull => 7
  | call => 8
  | ret => 9
  | pop => 10

/-- The operation that a word encodes. -/
def ofWord? (w : UInt16) : Option Opcode :=
  match w.toNat with
  | 0 => some pushNull
  | 1 => some pushConstant
  | 2 => some loadLocal
  | 3 => some storeLocal
  | 4 => some loadModuleValue
  | 5 => some loadModuleFunction
  | 6 => some branch
  | 7 => some branchIfNull
  | 8 => some call
  | 9 => some ret
  | 10 => some pop
  | _ => none

/-- The name of an operation in listings and diagnostics. -/
def mnemonic : Opcode → String
  | pushNull => "push-null"
  | pushConstant => "push-constant"
  | loadLocal => "load-local"
  | storeLocal => "store-local"
  | loadModuleValue => "load-module-value"
  | loadModuleFunction => "load-module-function"
  | branch => "branch"
  | branchIfNull => "branch-if-null"
  | call => "call"
  | ret => "return"
  | pop => "pop"

/-- Number of operand words that follow the operation word. -/
def width : Opcode → Nat
  | pushConstant | loadLocal | storeLocal | branch | branchIfNull | call => 1
  | pushNull | loadModuleValue | loadModuleFunction | ret | pop => 0

/-- The words of one instruction. Operands beyond the width are left out and the
    rest are taken modulo the word size. -/
def encode (op : Opcode) (operands : List Nat) : List UInt16 :=
  op.word :: (operands.take op.width).map UInt16.ofNat

@[simp] theorem ofWord?_word (op : Opcode) : ofWord? op.word = some op := by
  cases op <;> rfl

end Opcode

/-- Largest operand that a word holds. -/
def maxOperand : Nat := 65535

end LispMachine
