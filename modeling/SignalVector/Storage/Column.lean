import SignalVector.Layout
import SignalVector.Storage.Matrix

/-!
A vector kept as a matrix of one column, for those who compute with matrices. It has no operation
of its own.

Taken for granted of matrices: the rows of one never change, nor do entries that are not written; the
entry of a row is there for every row, and for no other index, where reading and writing it are
faults.
-/
namespace SignalVector

structure Column (T : Type) where
  entries : Array T

namespace Column

variable {T : Type}

def ofMatrix (m : Matrix T) : Except Failure (Column T) := do
  checkSize 1 m.columns
  return ⟨m.entries.toArray⟩

def zeros [Zero T] (room : Matrix.Room) (size : Nat) : Except Failure (Column T) := do
  ofMatrix (← Matrix.zeros room size 1)

def toMatrix (c : Column T) : Matrix T where
  rows := c.entries.size
  columns := 1
  entries := ⟨c.entries, (Nat.mul_one _).symm⟩

def entry (c : Column T) (index : Nat) : Except Failure T := do
  checkIndex index c.entries.size
  Index.found index c.entries.size c.entries[index]?

def access : Access (Column T) T where
  cells c := { size := c.entries.size, get := c.entry }
  modify index f c :=
    match c.entry index with
    | .ok _ => .ok () ⟨c.entries.modify index f⟩
    | .error e => .error e c

def layout [Zero T] [Add T] [Mul T] : Layout (Column T) T := access.toLayout

end Column

end SignalVector
