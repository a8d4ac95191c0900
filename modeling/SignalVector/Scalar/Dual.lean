import SignalVector.Buffer
import SignalVector.Scalar.Magnitude

/-!
Dual numbers: a value together with its derivatives in `n` independent variables. Comparisons look
at the value alone, so the derivatives that a maximum or a norm carries are those of the operand
it chose.
-/
namespace SignalVector

structure Dual (R : Type) (n : Nat) where
  value : R
  derivatives : Vector R n

namespace Dual

variable {R : Type} {n : Nat}

def constant [Zero R] (value : R) : Dual R n := ⟨value, Vector.replicate n 0⟩

def seeded [Zero R] [One R] (value : R) (slot : Nat) : Except Failure (Dual R n) :=
  if h : slot < n then .ok ⟨value, (Vector.replicate n 0).set slot 1⟩
  else .error (.faulted (.seed slot n))

def add [Add R] (a b : Dual R n) : Dual R n :=
  ⟨a.value + b.value, a.derivatives.zipWith (· + ·) b.derivatives⟩

def mul [Add R] [Mul R] (a b : Dual R n) : Dual R n :=
  ⟨a.value * b.value,
    a.derivatives.zipWith (fun da db => da * b.value + a.value * db) b.derivatives⟩

def scale [Mul R] (a : Dual R n) (k : R) : Dual R n :=
  ⟨a.value * k, a.derivatives.map (· * k)⟩

def neg [One R] [Mul R] [Neg R] (a : Dual R n) : Dual R n := a.scale (-1)

def isZero [Zero R] [BEq R] (a : Dual R n) : Bool :=
  a.value == 0 && a.derivatives.all (· == 0)

instance [Width R] : Width (Dual R n) := ⟨(n + 1) * Width.bytes R⟩

instance [Zero R] : Zero (Dual R n) := ⟨constant 0⟩
instance [Zero R] [One R] : One (Dual R n) := ⟨constant 1⟩
instance [Add R] : Add (Dual R n) := ⟨add⟩
instance [Add R] [Mul R] : Mul (Dual R n) := ⟨mul⟩
instance [One R] [Mul R] [Neg R] : Neg (Dual R n) := ⟨neg⟩
instance [One R] [Add R] [Mul R] [Neg R] : Sub (Dual R n) := ⟨fun a b => a + -b⟩

instance [Zero R] [One R] [Mul R] [Neg R] [LT R] [DecidableLT R] : Magnitude (Dual R n) where
  magnitude a := if a.value < 0 then -a else a
  larger a b := if a.value < b.value then b else a

instance [BEq R] : BEq (Dual R n) where
  beq a b := a.value == b.value && a.derivatives == b.derivatives

end Dual

end SignalVector
