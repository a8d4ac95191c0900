import SignalVector.Operands

/-!
How the elements of a vector are reached inside a state: what can be read of it, how one element is
changed and, where there is one, its backing slice. Every whole-vector change follows from these.
-/
namespace SignalVector

/-- A backing slice opened for writing: its entries, and the state with other entries in their
place. The length of a slice is fixed. -/
structure Slots (σ T : Type) where
  length : Nat
  values : Vector T length
  put : Vector T length → σ

namespace Slots

variable {σ τ T : Type}

def map (f : σ → τ) (slots : Slots σ T) : Slots τ T :=
  ⟨slots.length, slots.values, fun values => f (slots.put values)⟩

def overwrite (slots : Slots σ T) (source : Array T) : Except Failure σ :=
  if h : source.size = slots.length then .ok (slots.put ⟨source, h⟩)
  else .error (.faulted (.lengths slots.length source.size))

def fill (slots : Slots σ T) (x : T) : σ := slots.put (Vector.replicate slots.length x)

def update (slots : Slots σ T) (f : T → T) : σ := slots.put (slots.values.map f)

end Slots

structure Access (σ T : Type) where
  cells : σ → Cells T
  modify : Nat → (T → T) → Update σ Unit
  slots : σ → Option (Slots σ T) := fun _ => none

namespace Access

variable {σ T : Type}

def set (a : Access σ T) (index : Nat) (value : T) : Update σ Unit :=
  a.modify index fun _ => value

def assign (a : Access σ T) (values : Array T) : Update σ Unit := do
  let s ← get
  checkSize (a.cells s).size values.size
  match a.slots s with
  | some slots => MonadState.set (← slots.overwrite values)
  | none => values.toList.zipIdx.forM fun (x, i) => a.set i x

def clear [Zero T] (a : Access σ T) : Update σ Unit := do
  let s ← get
  match a.slots s with
  | some slots => MonadState.set (slots.fill 0)
  | none => (List.range (a.cells s).size).forM fun i => (a.set i 0).tolerant

def accumulate [Zero T] [Add T] [Mul T] (a : Access σ T) (operands : Operands T) :
    Update σ Unit := do
  let s ← get
  (List.range (a.cells s).size).forM fun i => do
    let sum ← operands.sumAt i
    a.modify i (· + sum)

end Access

end SignalVector
