import SignalVector.Decimal.Text
import SignalVector.Scalar.Dual
import SignalVector.Scalar.Expression

/-!
The text of scalars. A dual number shows its value; an expression shows its tree, and a count of
places reaches it only where the tree is a single constant.
-/
namespace SignalVector

class Render (T : Type) where
  render (places : Option Nat) : T → String

export Render (render)

variable {R : Type} {n : Nat}

instance : Render Float := ⟨Decimal.text⟩

instance [Render R] : Render (Dual R n) := ⟨fun places a => render places a.value⟩

def mostPlaces : Nat := Nat.pow 2 16 - 1

def write {T : Type} [Render T] (places : Option Nat) (x : T) : Except Failure String :=
  match places with
  | some count =>
    if count ≤ mostPlaces then .ok (render places x) else .error (.faulted (.places count))
  | none => .ok (render none x)

def Expression.text [Render R] : Expression R → String
  | constant c => render none c
  | symbol name => name
  | sum a b => "(" ++ a.text ++ " + " ++ b.text ++ ")"
  | product a b => "(" ++ a.text ++ " * " ++ b.text ++ ")"
  | negation a => "-" ++ a.text
  | absolute a => "abs(" ++ a.text ++ ")"
  | greater a b => "max(" ++ a.text ++ ", " ++ b.text ++ ")"

instance [Render R] : Render (Expression R) where
  render places
    | .constant c => render places c
    | e => e.text

end SignalVector
