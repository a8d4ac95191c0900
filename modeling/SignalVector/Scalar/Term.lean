import SignalVector.Scalar.Magnitude

/-!
Terms over the scalar operations. A term is written once and computed on any scalar type that its
leaves are given values in.
-/
namespace SignalVector

inductive Term (ι : Type) where
  | zero
  | one
  | leaf (i : ι)
  | neg (a : Term ι)
  | magnitude (a : Term ι)
  | add (a b : Term ι)
  | sub (a b : Term ι)
  | mul (a b : Term ι)
  | larger (a b : Term ι)
  deriving DecidableEq, Repr

namespace Term

variable {T ι κ ε : Type}

def eval [Zero T] [One T] [Neg T] [Add T] [Sub T] [Mul T] [Magnitude T] (f : ι → T) :
    Term ι → T
  | zero => 0
  | one => 1
  | leaf i => f i
  | neg a => -a.eval f
  | magnitude a => Magnitude.magnitude (a.eval f)
  | add a b => a.eval f + b.eval f
  | sub a b => a.eval f - b.eval f
  | mul a b => a.eval f * b.eval f
  | larger a b => Magnitude.larger (a.eval f) (b.eval f)

def leaves : Term ι → List ι
  | zero => []
  | one => []
  | leaf i => [i]
  | neg a => a.leaves
  | magnitude a => a.leaves
  | add a b => a.leaves ++ b.leaves
  | sub a b => a.leaves ++ b.leaves
  | mul a b => a.leaves ++ b.leaves
  | larger a b => a.leaves ++ b.leaves

def traverse (f : ι → Except ε κ) : Term ι → Except ε (Term κ)
  | zero => .ok zero
  | one => .ok one
  | leaf i => do return leaf (← f i)
  | neg a => do return neg (← a.traverse f)
  | magnitude a => do return magnitude (← a.traverse f)
  | add a b => do return add (← a.traverse f) (← b.traverse f)
  | sub a b => do return sub (← a.traverse f) (← b.traverse f)
  | mul a b => do return mul (← a.traverse f) (← b.traverse f)
  | larger a b => do return larger (← a.traverse f) (← b.traverse f)

end Term

end SignalVector
