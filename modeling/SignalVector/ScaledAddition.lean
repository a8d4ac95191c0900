import SignalVector.Layout

/-!
Scaled addition and its chains. All operands of one link are checked before any element changes;
a chain ends at the first link that fails.
-/
namespace SignalVector

inductive Link (T : Type) where
  | add (x : Cells T)
  | subtract (x : Cells T)
  | addScaled (scale : T) (x : Cells T)
  | addScaledAll (terms : List (T × Cells T))

variable {σ T : Type}

def Link.terms [One T] [Neg T] : Link T → List (T × Cells T)
  | add x => [(1, x)]
  | subtract x => [(-1, x)]
  | addScaled scale x => [(scale, x)]
  | addScaledAll terms => terms

namespace Layout

def addScaledAll (v : Layout σ T) (terms : List (T × Cells T)) : Update σ Unit := do
  v.accumulate (← Operands.check (v.size (← get)) terms)

def apply [One T] [Neg T] (v : Layout σ T) (link : Link T) : Update σ Unit :=
  v.addScaledAll link.terms

def chain [One T] [Neg T] (v : Layout σ T) (links : List (Link T)) : Update σ Unit :=
  links.forM v.apply

end Layout

end SignalVector
