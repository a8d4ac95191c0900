import SignalVector.Buffer
import SignalVector.Scalar.Magnitude

/-!
Symbolic expressions over a number type. The operators fold constants and drop neutral operands as
they build, so an expression made with them stays in a normal form, and a sum that starts from
zero stays small.
-/
namespace SignalVector

inductive Expression (R : Type) where
  | constant (value : R)
  | symbol (name : String)
  | sum (a b : Expression R)
  | product (a b : Expression R)
  | negation (a : Expression R)
  | absolute (a : Expression R)
  | greater (a b : Expression R)
  deriving DecidableEq, Repr

namespace Expression

variable {R : Type}

def asConstant : Expression R → Option R
  | constant c => some c
  | _ => none

/-- Node by node; constants are compared as numbers, so one that differs from itself makes the
whole expression differ from itself. -/
def beq [BEq R] : Expression R → Expression R → Bool
  | constant a, constant b => a == b
  | symbol a, symbol b => a == b
  | sum a b, sum c d => beq a c && beq b d
  | product a b, product c d => beq a c && beq b d
  | negation a, negation b => beq a b
  | absolute a, absolute b => beq a b
  | greater a b, greater c d => beq a c && beq b d
  | _, _ => false

instance [BEq R] : BEq (Expression R) := ⟨beq⟩

/-- A buffer holds references to expressions. -/
instance : Width (Expression R) := ⟨8⟩

instance [Zero R] : Zero (Expression R) := ⟨constant 0⟩
instance [One R] : One (Expression R) := ⟨constant 1⟩

def isZero [Zero R] [BEq R] (e : Expression R) : Bool :=
  match e.asConstant with
  | some c => c == 0
  | none => false

def isOne [One R] [BEq R] (e : Expression R) : Bool :=
  match e.asConstant with
  | some c => c == 1
  | none => false

def add [Zero R] [Add R] [BEq R] (e f : Expression R) : Expression R :=
  match e.asConstant, f.asConstant with
  | some a, some b => constant (a + b)
  | _, _ => if e.isZero then f else if f.isZero then e else sum e f

def mul [Zero R] [One R] [Mul R] [BEq R] (e f : Expression R) : Expression R :=
  match e.asConstant, f.asConstant with
  | some a, some b => constant (a * b)
  | _, _ =>
    if e.isZero || f.isZero then 0
    else if e.isOne then f
    else if f.isOne then e
    else product e f

def neg [Neg R] : Expression R → Expression R
  | constant c => constant (-c)
  | negation e => e
  | e => negation e

def abs [Magnitude R] : Expression R → Expression R
  | constant c => constant (magnitude c)
  | e => absolute e

def max [Magnitude R] [BEq R] (e f : Expression R) : Expression R :=
  match e.asConstant, f.asConstant with
  | some a, some b => constant (larger a b)
  | _, _ => if e == f then e else greater e f

instance [Zero R] [Add R] [BEq R] : Add (Expression R) := ⟨add⟩
instance [Zero R] [One R] [Mul R] [BEq R] : Mul (Expression R) := ⟨mul⟩
instance [Neg R] : Neg (Expression R) := ⟨neg⟩
instance [Zero R] [Add R] [Neg R] [BEq R] : Sub (Expression R) := ⟨fun e f => e + -f⟩

instance [Magnitude R] [BEq R] : Magnitude (Expression R) where
  magnitude := abs
  larger := max

def evaluate [Add R] [Mul R] [Neg R] [Magnitude R] (env : String → Option R) :
    Expression R → Option R
  | constant c => some c
  | symbol name => env name
  | sum a b => do return (← a.evaluate env) + (← b.evaluate env)
  | product a b => do return (← a.evaluate env) * (← b.evaluate env)
  | negation a => do return -(← a.evaluate env)
  | absolute a => do return magnitude (← a.evaluate env)
  | greater a b => do return larger (← a.evaluate env) (← b.evaluate env)

end Expression

end SignalVector
