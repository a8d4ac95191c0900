import SignalVector.Buffer
import SignalVector.Scalar.Magnitude

/-!
Binary64 numbers as scalars.
-/
namespace SignalVector.Binary64

/-- A value that is not a number gives way to the other operand, on either side. -/
def larger (a b : Float) : Float :=
  if a.isNaN then b
  else if b.isNaN then a
  else if a < b then b
  else a

def isZero (a : Float) : Bool := a == 0

instance : Width Float := ⟨8⟩

instance : Magnitude Float where
  magnitude := Float.abs
  larger := larger

end SignalVector.Binary64
