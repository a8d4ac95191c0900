import SignalVector.Layout

/-!
The elements of a vector from one index on, numbered from zero. Every access goes through the
parent, whatever the parent's storage.
-/
namespace SignalVector

structure Range (σ T : Type) where
  parent : Layout σ T
  first : Nat
  length : Nat

namespace Range

variable {σ T : Type}

/-- A range that does not fit is refused at its last index; a sum of indices that is no index does
not fit. -/
def make (parent : Layout σ T) (s : σ) (first length : Nat) : Except Failure (Range σ T) :=
  let size := parent.size s
  let last := Index.saturatingAdd first (length - 1)
  match Index.add? first length with
  | some stop =>
    if stop ≤ size then .ok ⟨parent, first, length⟩
    else .error (.refused (.outOfRange last size))
  | none => .error (.refused (.outOfRange last size))

def access (r : Range σ T) : Access σ T where
  cells s :=
    { size := r.length
      get := fun index => do
        checkIndex index r.length
        (r.parent.cells s).get (← Index.add r.first index) }
  modify index f := do
    checkIndex index r.length
    r.parent.modify (← Index.add r.first index) f

def layout [Zero T] [Add T] [Mul T] (r : Range σ T) : Layout σ T := r.access.toLayout

end Range

end SignalVector
