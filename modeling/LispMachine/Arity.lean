/-!
# Argument counts

How many arguments a callable takes: a fixed number, or a least number.
-/

namespace LispMachine

/-- The argument counts that a callable accepts. -/
inductive Arity where
  | exactly (count : Nat)
  | atLeast (count : Nat)
deriving DecidableEq

namespace Arity

/-- Whether a call with this many arguments is accepted. -/
def accepts : Arity → Nat → Bool
  | exactly count, given => count == given
  | atLeast count, given => count ≤ given

/-- The wording of an arity in diagnostics. -/
def label : Arity → String
  | exactly count => toString count
  | atLeast count => s!"at least {count}"

end Arity

end LispMachine
