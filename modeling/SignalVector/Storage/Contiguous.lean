import SignalVector.Layout

/-!
A vector that keeps its elements in one slice, with limits for them if it was given any. Its
whole-vector operations are single passes over the slice.
-/
namespace SignalVector

structure Contiguous (T : Type) where
  values : Array T
  bounds : Bounds

namespace Contiguous

variable {T : Type}

def ofArray (values : Array T) : Contiguous T := ⟨values, .unbounded⟩

def zeros [Zero T] [Width T] (size : Nat) : Except Failure (Contiguous T) := do
  return ofArray (← Buffer.zeros size)

def withBounds (c : Contiguous T) (lower upper : Array Float) : Except Failure (Contiguous T) := do
  let bounds ← Bounds.make lower upper
  checkSize c.values.size bounds.length
  return { c with bounds := bounds }

def entry (c : Contiguous T) (index : Nat) : Except Failure T :=
  Index.found index c.values.size c.values[index]?

def setEntry (index : Nat) (value : T) : Update (Contiguous T) Unit := fun c =>
  if index < c.values.size then .ok () { c with values := c.values.setIfInBounds index value }
  else .error (.faulted (.entry index c.values.size)) c

def reverse (c : Contiguous T) : Contiguous T := { c with values := c.values.reverse }

def access : Access (Contiguous T) T where
  cells c := .ofArray c.values
  modify index f c :=
    if index < c.values.size then .ok () { c with values := c.values.modify index f }
    else .error (.refused (.outOfRange index c.values.size)) c
  slots c := some
    { length := c.values.size
      values := ⟨c.values, rfl⟩
      put := fun values => { c with values := values.toArray } }

def copyInto (c : Contiguous T) : Update (Array T) Unit := do
  checkSize c.values.size (← get).size
  Buffer.overwrite c.values

def scaleAndAddInto [Add T] [Mul T] (scale : T) (c : Contiguous T) : Update (Array T) Unit := do
  checkSize c.values.size (← get).size
  modify (Buffer.combine (fun old x => old + scale * x) c.values)

def accumulate [Zero T] [Add T] [Mul T] (operands : Operands T) : Update (Contiguous T) Unit := do
  let c ← get
  checkSize c.values.size operands.size
  (List.range c.values.size).forM fun i => do
    let sum ← operands.sumAt i
    modify fun c => { c with values := c.values.modify i (· + sum) }

def layout [Zero T] [Add T] [Mul T] : Layout (Contiguous T) T :=
  { access.toLayout with
    toArray := fun c => .ok c.values
    copyInto := copyInto
    scaleAndAddInto := scaleAndAddInto
    bounds := fun c => c.bounds
    accumulate := accumulate }

instance [BEq T] : BEq (Contiguous T) where
  beq a b := a.values == b.values && a.bounds == b.bounds

end Contiguous

end SignalVector
