import SignalVector.Cells

/-!
The terms of a scaled addition, each a scale and a vector. A list becomes operands only if every
vector has the size of the receiver.
-/
namespace SignalVector

structure Operands (T : Type) where
  size : Nat
  terms : List (T × Cells T)
  sizes : ∀ t ∈ terms, t.2.size = size

namespace Operands

variable {T : Type}

def check (size : Nat) (terms : List (T × Cells T)) : Except Failure (Operands T) :=
  match h : terms.find? fun t => t.2.size ≠ size with
  | some t => .error (.refused (.sizeMismatch size t.2.size))
  | none => .ok ⟨size, terms, by simpa using h⟩

def sumAt [Zero T] [Add T] [Mul T] (o : Operands T) (index : Nat) : Except Failure T :=
  o.terms.foldlM (fun sum (scale, x) => do return sum + (← x.read index) * scale) 0

end Operands

end SignalVector
