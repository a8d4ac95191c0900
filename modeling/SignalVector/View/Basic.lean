import SignalVector.Storage.Registry
import SignalVector.View.Blocks
import SignalVector.View.Range

/-!
Views of named base vectors: ranges and blocks, nested in any way. Opening a view measures the
vectors below it as they are then; writing through it changes the bases it addresses.
-/
namespace SignalVector

inductive View where
  | base (name : String)
  | range (parent : View) (first length : Nat)
  | blocks (parts : List View)

namespace View

variable {T : Type}

mutual

def names : View → List String
  | base name => [name]
  | range parent _ _ => parent.names
  | blocks parts => namesAll parts

def namesAll : List View → List String
  | [] => []
  | view :: views => view.names ++ namesAll views

end

section Opening

variable [Zero T] [Add T] [Mul T]

mutual

def openIn (r : Registry T) : View → Except Failure (Layout (Registry T) T)
  | base name => .ok (Registry.layout name)
  | range parent first length => do
    return (← Range.make (← openIn r parent) r first length).layout
  | blocks parts => do return (← Blocks.make (← openAll r parts) r).layout

def openAll (r : Registry T) : List View → Except Failure (List (Layout (Registry T) T))
  | [] => .ok []
  | view :: views => do
    let v ← openIn r view
    return v :: (← openAll r views)

end

def openRange? (r : Registry T) : View → Except Failure (Option (Range (Registry T) T))
  | range parent first length => do
    return some (← Range.make (← openIn r parent) r first length)
  | _ => .ok none

def openBlocks? (r : Registry T) : View → Except Failure (Option (Blocks (Registry T) T))
  | blocks parts => do return some (← Blocks.make (← openAll r parts) r)
  | _ => .ok none

end Opening

end View

end SignalVector
