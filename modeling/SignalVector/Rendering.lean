import SignalVector.Access
import SignalVector.Scalar.Render

/-!
The text of a vector: its elements in brackets, or the first of them and three dots.
-/
namespace SignalVector

structure FormatOptions where
  places : Option Nat := none
  maxElements : Option Nat := none

variable {σ T : Type}

def FormatOptions.shown (options : FormatOptions) (size : Nat) : Nat :=
  match options.maxElements with
  | some most => min most size
  | none => size

def writeElements [Render T] (places : Option Nat) (xs : List T) (text : String) :
    Except Failure String :=
  xs.zipIdx.foldlM (fun text (x, i) => do
    let text := if 0 < i then text ++ ", " else text
    return text ++ (← write places x)) text

namespace Cells

variable [Render T]

def text (c : Cells T) (options : FormatOptions := {}) : Except Failure String := do
  let shown := options.shown c.size
  let (xs, _) ← c.cursor.take shown
  let text ← writeElements options.places xs "["
  let dotted :=
    if shown < c.size then (if 0 < shown then text ++ ", " else text) ++ "..." else text
  return dotted ++ "]"

def display (c : Cells T) : Except Failure String := c.text {}

end Cells

def Access.display [Render T] (a : Access σ T) (s : σ) : Except Failure String :=
  (a.cells s).display

end SignalVector
