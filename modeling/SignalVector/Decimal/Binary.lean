/-!
The exact value of a binary64 number, as a mantissa and a power of two.
-/
namespace SignalVector.Decimal

structure Binary where
  mantissa : Nat
  exponent : Int
  deriving DecidableEq, Repr

def Binary.numerator (b : Binary) : Nat := b.mantissa * Nat.pow 2 b.exponent.toNat

def Binary.denominator (b : Binary) : Nat := Nat.pow 2 (-b.exponent).toNat

inductive Parts where
  | notANumber
  | infinite (negative : Bool)
  | finite (negative : Bool) (size : Binary)
  deriving DecidableEq, Repr

/-- One sign bit, eleven bits of exponent and fifty-two of fraction; the least exponent holds the
numbers without a leading one, the greatest the infinities and what is not a number. -/
def Parts.ofBits (bits : Nat) : Parts :=
  let negative := bits / Nat.pow 2 63 % 2 == 1
  let scale : Nat := bits / Nat.pow 2 52 % Nat.pow 2 11
  let fraction := bits % Nat.pow 2 52
  if scale = 2047 then
    if fraction = 0 then .infinite negative else .notANumber
  else if scale = 0 then .finite negative ⟨fraction, -1074⟩
  else .finite negative ⟨Nat.pow 2 52 + fraction, (scale : Int) - 1075⟩

def Parts.ofFloat (x : Float) : Parts := ofBits x.toBits.toNat

end SignalVector.Decimal
