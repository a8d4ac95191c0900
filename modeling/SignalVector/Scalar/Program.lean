import SignalVector.Index
import SignalVector.Scalar.Term

/-!
Straight-line programs: each step computes a term over inputs and earlier registers and writes the
next register, so a value computed once is shared by all later steps.
-/
namespace SignalVector

inductive Source (ι : Type) where
  | input (i : ι)
  | register (k : Nat)
  deriving DecidableEq, Repr

abbrev Program (ι : Type) := List (Term (Source ι))

namespace Program

variable {T ι : Type}

def read (input : ι → Except Failure T) (registers : Array T) : Source ι → Except Failure T
  | .input i => input i
  | .register k =>
    match registers[k]? with
    | some x => .ok x
    | none => .error (.faulted (.register k registers.size))

def run [Zero T] [One T] [Neg T] [Add T] [Sub T] [Mul T] [Magnitude T]
    (input : ι → Except Failure T) : Program ι → Array T → Except Failure (Array T)
  | [], registers => .ok registers
  | step :: steps, registers => do
    let term ← step.traverse (read input registers)
    run input steps (registers.push (term.eval id))

end Program

end SignalVector
