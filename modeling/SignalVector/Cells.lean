import SignalVector.Buffer
import SignalVector.Index
import SignalVector.Scalar.Magnitude

/-!
What can be read of a vector at one moment, and what is computed from reading alone. Whole-vector
reads walk a cursor over the elements and end at the first refusal.
-/
namespace SignalVector

structure Cells (T : Type) where
  size : Nat
  get : Nat → Except Failure T
  contiguous : Option (Array T) := none

structure Cursor (T : Type) where
  cells : Cells T
  position : Nat

variable {T : Type}

namespace Cursor

def length (c : Cursor T) : Nat := c.cells.size - c.position

def sizeHint (c : Cursor T) : Nat × Option Nat := (c.length, some c.length)

def next? (c : Cursor T) : Except Failure (Option (T × Cursor T)) :=
  match c.cells.get c.position with
  | .ok x => do return some (x, { c with position := ← Index.add c.position 1 })
  | .error (.refused _) => .ok none
  | .error e => .error e

def take : Nat → Cursor T → Except Failure (List T × Cursor T)
  | 0, c => .ok ([], c)
  | count + 1, c => do
    match ← c.next? with
    | some (x, c) =>
      let (xs, c) ← take count c
      return (x :: xs, c)
    | none => return ([], c)

/-- All elements up to the first refusal. No cursor takes as many steps as there are indices. -/
def rest (c : Cursor T) : Except Failure (List T) := do
  let (xs, _) ← c.take Index.limit
  return xs

end Cursor

namespace Cells

def readSlice (values : Array T) (index : Nat) : Except Failure T :=
  match values[index]? with
  | some x => .ok x
  | none => .error (.refused (.outOfRange index values.size))

def ofArray (values : Array T) : Cells T where
  size := values.size
  get := readSlice values
  contiguous := some values

def cursor (c : Cells T) : Cursor T := ⟨c, 0⟩

/-- The room for the copy is not checked. The elements stand in memory, each in a place of its own, and
all of memory is smaller than the largest buffer. -/
def toArray (c : Cells T) : Except Failure (Array T) := do
  return (← c.cursor.rest).toArray

def read (c : Cells T) (index : Nat) : Except Failure T :=
  match c.contiguous with
  | some values => readSlice values index
  | none => c.get index

def element (c : Cells T) (index : Nat) : Except Failure T :=
  match c.get index with
  | .error (.refused cause) => .error (.faulted (.element cause))
  | r => r

/-- What an iteration shows: the elements of its first steps, the element that would come next, and
the count of elements ahead before and after the steps. -/
structure Walk (T : Type) where
  before : Nat
  items : List T
  after : Nat
  next : Option T

def walk (c : Cells T) (count : Nat) : Except Failure (Walk T) := do
  let (items, cursor) ← c.cursor.take count
  let next ← cursor.next?
  return ⟨c.cursor.length, items, cursor.length, next.map (·.1)⟩

def combineInto (c : Cells T) (f : T → T → T) : Update (Array T) Unit := do
  let target ← getThe (Array T)
  checkSize c.size target.size
  let (xs, _) ← c.cursor.take target.size
  set (Buffer.combine f xs.toArray target)

def copyInto (c : Cells T) : Update (Array T) Unit :=
  c.combineInto fun _ x => x

def scaleAndAddInto [Add T] [Mul T] (c : Cells T) (scale : T) : Update (Array T) Unit :=
  c.combineInto fun old x => old + scale * x

def normInf [Zero T] [Magnitude T] (c : Cells T) : Except Failure T := do
  match (← c.cursor.rest).map magnitude with
  | [] => return 0
  | m :: ms => return ms.foldl larger m

end Cells

end SignalVector
