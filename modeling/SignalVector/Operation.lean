import SignalVector.Frame
import SignalVector.ScaledAddition

/-!
Calls through a vector, as data. A run of calls goes on after a call that fails, and shows for each
call its result and the buffer that was handed to it, as the call left it.
-/
namespace SignalVector

inductive Operation (T : Type) where
  | get (index : Nat)
  | set (index : Nat) (value : T)
  | setFrom (source : Cells T)
  | assign (values : Array T)
  | clear
  | toArray
  | copyInto (target : Option (Array T))
  | scaleAndAddInto (scale : T) (target : Option (Array T))
  | chain (links : List (Link T))
  | normInf
  | walk (count : Nat)
  | refresh (frame : Frame T)
  | restore (frame : Frame T)

inductive Answer (T : Type) where
  | done
  | scalar (x : T)
  | values (xs : Array T)
  | walk (w : Cells.Walk T)

structure Outcome (T : Type) where
  result : Except Failure (Answer T)
  buffer : Option (Array T) := none

namespace Operation

variable {σ T : Type}

def reading (answer : Except Failure (Answer T)) (s : σ) : Outcome T × σ := (⟨answer, none⟩, s)

def writing (u : Update σ Unit) (s : σ) : Outcome T × σ :=
  match u s with
  | .ok _ s => (⟨.ok .done, none⟩, s)
  | .error e s => (⟨.error e, none⟩, s)

def filling {β : Type} (buffer : β → Option (Array T)) :
    EStateM.Result Failure β Unit → σ → Outcome T × σ
  | .ok _ b, s => (⟨.ok .done, buffer b⟩, s)
  | .error e b, s => (⟨.error e, buffer b⟩, s)

variable [Zero T] [One T] [Add T] [Mul T] [Neg T] [Magnitude T]

def run (v : Layout σ T) : Operation T → σ → Outcome T × σ
  | get index, s => reading (.scalar <$> (v.cells s).get index) s
  | set index value, s => writing (v.set index value) s
  | setFrom source, s => writing (v.setFrom source) s
  | assign values, s => writing (v.assign values) s
  | clear, s => writing v.clear s
  | toArray, s => reading (.values <$> v.toArray s) s
  | copyInto target, s => filling id (v.copyToTarget s target) s
  | scaleAndAddInto scale target, s => filling id (v.scaleAndAddToTarget scale s target) s
  | chain links, s => writing (v.chain links) s
  | normInf, s => reading (.scalar <$> v.normInf s) s
  | walk count, s => reading (.walk <$> (v.cells s).walk count) s
  | refresh frame, s => filling (fun frame => some frame.values) (Frame.refresh v s frame) s
  | restore frame, s => writing (frame.restore v) s

def runAll (v : Layout σ T) : List (Operation T) → σ → List (Outcome T) × σ
  | [], s => ([], s)
  | op :: ops, s =>
    let (outcome, s) := op.run v s
    let (outcomes, s) := runAll v ops s
    (outcome :: outcomes, s)

end Operation

end SignalVector
