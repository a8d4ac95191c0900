import SignalVector.Access
import SignalVector.Bounds

/-!
A vector kept inside a state, with its whole-vector operations. A layout names the operations for
which its storage has a pass of its own; all others follow from its access.
-/
namespace SignalVector

structure Layout (σ T : Type) extends Access σ T where
  toArray : σ → Except Failure (Array T)
  copyInto : σ → Update (Array T) Unit
  scaleAndAddInto : T → σ → Update (Array T) Unit
  bounds : σ → Bounds
  assign : Array T → Update σ Unit
  clear : Update σ Unit
  accumulate : Operands T → Update σ Unit

def Access.toLayout {σ T : Type} [Zero T] [Add T] [Mul T] (a : Access σ T) : Layout σ T :=
  { a with
    toArray := fun s => (a.cells s).toArray
    copyInto := fun s => (a.cells s).copyInto
    scaleAndAddInto := fun scale s => (a.cells s).scaleAndAddInto scale
    bounds := fun _ => .unbounded
    assign := a.assign
    clear := a.clear
    accumulate := a.accumulate }

namespace Layout

variable {σ τ T : Type}

def size (v : Layout σ T) (s : σ) : Nat := (v.cells s).size

def normInf [Zero T] [Magnitude T] (v : Layout σ T) (s : σ) : Except Failure T :=
  (v.cells s).normInf

def setFrom (v : Layout σ T) (source : Cells T) : Update σ Unit := do
  checkSize (v.size (← get)) source.size
  match source.contiguous with
  | some values => v.assign values
  | none => (List.range source.size).forM fun i => do v.set i (← source.get i)

def setElement (v : Layout σ T) (index : Nat) (value : T) : Update σ Unit := fun s =>
  match v.set index value s with
  | .error (.refused cause) s => .error (.faulted (.element cause)) s
  | r => r

def focus (part : σ → τ) (store : τ → σ → σ) (hole : τ) (v : Layout τ T) : Layout σ T where
  cells s := v.cells (part s)
  modify index f := (v.modify index f).focus part store hole
  slots s := (v.slots (part s)).map (·.map (store · s))
  toArray s := v.toArray (part s)
  copyInto s := v.copyInto (part s)
  scaleAndAddInto scale s := v.scaleAndAddInto scale (part s)
  bounds s := v.bounds (part s)
  assign values := (v.assign values).focus part store hole
  clear := v.clear.focus part store hole
  accumulate operands := (v.accumulate operands).focus part store hole

end Layout

end SignalVector
