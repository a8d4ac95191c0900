import SignalVector.Failure

/-!
Advisory limits of the elements of a vector. Vectors carry them and never enforce them; without
entries nothing is limited.
-/
namespace SignalVector

structure Bounds where
  lower : Array Float
  upper : Array Float

namespace Bounds

def unbounded : Bounds := ⟨#[], #[]⟩

def make (lower upper : Array Float) : Except Failure Bounds := do
  checkSize lower.size upper.size
  return ⟨lower, upper⟩

def length (b : Bounds) : Nat := b.lower.size

def isUnbounded (b : Bounds) : Bool := b.lower.isEmpty

def admits (b : Bounds) (index : Nat) (value : Float) : Bool :=
  b.isUnbounded ||
    match b.lower[index]?, b.upper[index]? with
    | some low, some high => low ≤ value && value ≤ high
    | _, _ => false

instance : BEq Bounds where
  beq a b := a.lower == b.lower && a.upper == b.upper

end Bounds

end SignalVector
