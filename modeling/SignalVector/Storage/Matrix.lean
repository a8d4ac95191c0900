import SignalVector.Failure

/-!
Matrices, for those who compute with them. They are made elsewhere, so which of them memory holds is
a parameter; one that it does not hold is a fault.
-/
namespace SignalVector

/-- The entries stand row after row. -/
structure Matrix (T : Type) where
  rows : Nat
  columns : Nat
  entries : Vector T (rows * columns)

namespace Matrix

/-- Whether there is memory for a matrix of so many rows and columns. -/
def Room : Type := Nat → Nat → Bool

def Room.check (room : Room) (rows columns : Nat) : Except Failure Unit :=
  if room rows columns then .ok () else .error (.faulted (.matrix rows columns))

variable {T : Type}

def ofEntries (room : Room) {rows columns : Nat} (entries : Vector T (rows * columns)) :
    Except Failure (Matrix T) := do
  room.check rows columns
  return ⟨rows, columns, entries⟩

def zeros [Zero T] (room : Room) (rows columns : Nat) : Except Failure (Matrix T) := do
  room.check rows columns
  return ⟨rows, columns, Vector.replicate (rows * columns) 0⟩

end Matrix

end SignalVector
