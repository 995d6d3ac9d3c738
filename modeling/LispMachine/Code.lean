import LispMachine.Arity
import LispMachine.Ref

/-!
# Compiled code

The record that function and macro cells share: the parameters, the number of
variable slots, the constants and the instruction words.
-/

namespace LispMachine

/-- Compiled code. The slots cover the parameters, the rest parameter and every
    local; `home` is the cell of the module that the code belongs to. -/
structure Code where
  name : Ref
  params : Nat
  takesRest : Bool
  slots : Nat
  constants : Array Ref
  words : Array UInt16
  home : Ref
deriving DecidableEq

namespace Code

/-- The argument counts that the code accepts. -/
def arity (code : Code) : Arity :=
  if code.takesRest then .atLeast code.params else .exactly code.params

/-- Every cell that the code refers to. -/
def children (code : Code) : List Ref :=
  code.name :: (code.constants.toList ++ [code.home])

end Code

end LispMachine
