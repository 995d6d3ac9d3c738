/-!
# Rounding to double precision

Natural numbers rounded to the 53 significant bits of a double, and the point
from which a product no longer fits. All values are exact natural numbers.
-/

namespace LispMachine.Double

/-- The nearest number with at most 53 significant bits; of two equally near
    ones, the one whose last bit is even. -/
def nearest (n : Nat) : Nat :=
  let shift := n.log2 - 52
  let unit := 1 <<< shift
  let quotient := n / unit
  let remainder := n % unit
  if unit < 2 * remainder ∨ (2 * remainder = unit ∧ quotient % 2 = 1) then (quotient + 1) * unit
  else quotient * unit

/-- The least number that rounds to infinity: half a unit above the largest
    double. -/
def overflowBound : Nat := (1 <<< 1024) - (1 <<< 970)

/-- Whether the double of `significand`, multiplied by the double of a power of
    ten, is infinite. Powers beyond the doubles make every number but zero
    infinite, and a division never does. -/
def scaledOverflows (significand : Nat) (power : Int) : Bool :=
  if significand = 0 ∨ power < 0 then false
  else if 308 < power then true
  else overflowBound ≤ nearest significand * nearest (Nat.pow 10 power.toNat)

end LispMachine.Double
