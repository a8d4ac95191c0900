import SignalVector.Storage.Column
import SignalVector.Storage.Contiguous

/-!
The vectors that hold elements themselves. All others address these.
-/
namespace SignalVector

inductive Base (T : Type) where
  | contiguous (c : Contiguous T)
  | column (c : Column T)

namespace Base

variable {T : Type}

def empty : Base T := .contiguous (.ofArray #[])

def update (onContiguous : Update (Contiguous T) Unit) (onColumn : Update (Column T) Unit) :
    Update (Base T) Unit
  | .contiguous c => onContiguous.wrap .contiguous c
  | .column c => onColumn.wrap .column c

def layout [Zero T] [Add T] [Mul T] : Layout (Base T) T where
  cells
    | .contiguous c => Contiguous.layout.cells c
    | .column c => Column.layout.cells c
  modify index f := update (Contiguous.layout.modify index f) (Column.layout.modify index f)
  slots
    | .contiguous c => (Contiguous.layout.slots c).map (·.map .contiguous)
    | .column c => (Column.layout.slots c).map (·.map .column)
  toArray
    | .contiguous c => Contiguous.layout.toArray c
    | .column c => Column.layout.toArray c
  copyInto
    | .contiguous c => Contiguous.layout.copyInto c
    | .column c => Column.layout.copyInto c
  scaleAndAddInto scale
    | .contiguous c => Contiguous.layout.scaleAndAddInto scale c
    | .column c => Column.layout.scaleAndAddInto scale c
  bounds
    | .contiguous c => Contiguous.layout.bounds c
    | .column c => Column.layout.bounds c
  assign values := update (Contiguous.layout.assign values) (Column.layout.assign values)
  clear := update Contiguous.layout.clear Column.layout.clear
  accumulate operands :=
    update (Contiguous.layout.accumulate operands) (Column.layout.accumulate operands)

end Base

end SignalVector
