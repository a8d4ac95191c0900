import SignalVector.Update

/-!
Flat buffers: spans of them, and writing one over another. A span that does not lie inside its
buffer, a copy between different lengths and a buffer beyond all memory are faults.
-/
namespace SignalVector

class Width (T : Type) where
  bytes : Nat

namespace Buffer

variable {T α : Type}

def largest : Nat := Nat.pow 2 63 - 1

def reserve (T : Type) [Width T] (length : Nat) : Except Failure Unit :=
  if length * Width.bytes T ≤ largest then .ok () else .error (.faulted (.capacity length))

def zeros [Zero T] [Width T] (length : Nat) : Except Failure (Array T) := do
  reserve T length
  return Array.replicate length 0

def span (values : Array T) (start stop : Nat) : Except Failure (Array T) :=
  if start ≤ stop ∧ stop ≤ values.size then .ok (values.extract start stop)
  else .error (.faulted (.span start stop values.size))

def onSpan (start stop : Nat) (u : Update (Array T) α) : Update (Array T) α := fun values =>
  if start ≤ stop ∧ stop ≤ values.size then
    u.wrap (fun part => values.extract 0 start ++ part ++ values.extract stop values.size)
      (values.extract start stop)
  else .error (.faulted (.span start stop values.size)) values

def overwrite (source : Array T) : Update (Array T) Unit := fun target =>
  if source.size = target.size then .ok () source
  else .error (.faulted (.lengths target.size source.size)) target

def combine (f : T → T → T) (items target : Array T) : Array T :=
  target.mapIdx fun i old =>
    match items[i]? with
    | some item => f old item
    | none => old

end Buffer

end SignalVector
