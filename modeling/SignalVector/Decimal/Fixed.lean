import SignalVector.Decimal.Binary
import SignalVector.Decimal.Digits

/-!
A number rounded to a given count of decimal places, from its exact value; a half goes to the even
neighbour.
-/
namespace SignalVector.Decimal

def roundQuotient (n d : Nat) : Nat :=
  let q := n / d
  let r := n % d
  if 2 * r < d then q
  else if d < 2 * r then q + 1
  else if q % 2 = 0 then q
  else q + 1

/-- With as many places as the power of two below it the number is exact, and zeros follow. -/
def fixed (places : Nat) (b : Binary) : String :=
  let unit := min places (-b.exponent).toNat
  positional (roundQuotient (b.numerator * Nat.pow 10 unit) b.denominator) unit places

end SignalVector.Decimal
