import SignalVector.Layout

/-!
Several vectors joined into one. An index is found through the offsets at which the blocks start,
summed once when the blocks are joined; bulk writes and copies go to the blocks in turn.
-/
namespace SignalVector

/-- The offset of each block, and behind them the size of the whole. -/
structure Blocks (σ T : Type) where
  blocks : List (Layout σ T)
  offsets : List Nat

namespace Blocks

variable {σ T : Type}

def offsetsFrom (offset : Nat) : List Nat → Except Failure (List Nat)
  | [] => .ok [offset]
  | size :: sizes => do return offset :: (← offsetsFrom (← Index.add offset size) sizes)

def make (blocks : List (Layout σ T)) (s : σ) : Except Failure (Blocks σ T) := do
  return ⟨blocks, ← offsetsFrom 0 (blocks.map (·.size s))⟩

def count (b : Blocks σ T) : Nat := b.blocks.length

def size (b : Blocks σ T) : Nat := b.offsets.getLastD 0

def block? (b : Blocks σ T) (k : Nat) : Option (Layout σ T) := b.blocks[k]?

def offset? (b : Blocks σ T) (k : Nat) : Option Nat :=
  if k < b.count then b.offsets[k]? else none

/-- The block that holds an index, and the index within it. Empty blocks share their offset with
the next, so the last block that starts at or before the index is the one that holds it. -/
def locate (b : Blocks σ T) (index : Nat) : Except Failure (Nat × Nat) := do
  checkIndex index b.size
  let block ← Index.sub (b.offsets.takeWhile (· ≤ index)).length 1
  let start ← Index.found block b.offsets.length b.offsets[block]?
  return (block, ← Index.sub index start)

def find (b : Blocks σ T) (index : Nat) : Except Failure (Layout σ T × Nat) := do
  let (block, inner) ← b.locate index
  return (← Index.found block b.count b.blocks[block]?, inner)

def spans (b : Blocks σ T) : List (Layout σ T × Nat × Nat) :=
  b.blocks.zip (b.offsets.zip b.offsets.tail)

def access (b : Blocks σ T) : Access σ T where
  cells s :=
    { size := b.size
      get := fun index => do
        let (block, inner) ← b.find index
        (block.cells s).get inner }
  modify index f := do
    let (block, inner) ← b.find index
    block.modify inner f

def assign (b : Blocks σ T) (values : Array T) : Update σ Unit := do
  checkSize b.size values.size
  b.spans.forM fun (block, start, stop) => do block.assign (← Buffer.span values start stop)

def clear (b : Blocks σ T) : Update σ Unit :=
  b.blocks.forM fun block => block.clear

def copyInto (b : Blocks σ T) (s : σ) : Update (Array T) Unit := do
  checkSize b.size (← get).size
  b.spans.forM fun (block, start, stop) => Buffer.onSpan start stop (block.copyInto s)

def scaleAndAddInto (b : Blocks σ T) (scale : T) (s : σ) : Update (Array T) Unit := do
  checkSize b.size (← get).size
  b.spans.forM fun (block, start, stop) =>
    Buffer.onSpan start stop (block.scaleAndAddInto scale s)

def layout [Zero T] [Add T] [Mul T] (b : Blocks σ T) : Layout σ T :=
  { b.access.toLayout with
    copyInto := b.copyInto
    scaleAndAddInto := b.scaleAndAddInto
    assign := b.assign
    clear := b.clear }

end Blocks

end SignalVector
