import SignalVector.Layout

/-!
Snapshots of a vector's elements in a flat buffer, and copies to a buffer that may be absent.
-/
namespace SignalVector

structure Frame (T : Type) where
  values : Array T

variable {σ T : Type}

namespace Frame

def capture (v : Layout σ T) (s : σ) : Except Failure (Frame T) := do
  return ⟨← v.toArray s⟩

def refresh (v : Layout σ T) (s : σ) : Update (Frame T) Unit :=
  fun frame => (v.copyInto s).wrap Frame.mk frame.values

def restore (frame : Frame T) (v : Layout σ T) : Update σ Unit := v.assign frame.values

def length (frame : Frame T) : Nat := frame.values.size

def isEmpty (frame : Frame T) : Bool := frame.values.isEmpty

instance [BEq T] : BEq (Frame T) where
  beq a b := a.values == b.values

end Frame

namespace Layout

def intoTarget (copy : Update (Array T) Unit) : Update (Option (Array T)) Unit
  | none => .error (.refused .missingTarget) none
  | some target => copy.wrap some target

def copyToTarget (v : Layout σ T) (s : σ) : Update (Option (Array T)) Unit :=
  intoTarget (v.copyInto s)

def scaleAndAddToTarget (v : Layout σ T) (scale : T) (s : σ) : Update (Option (Array T)) Unit :=
  intoTarget (v.scaleAndAddInto scale s)

end Layout

end SignalVector
