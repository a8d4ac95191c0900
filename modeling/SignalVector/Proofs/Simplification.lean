import Mathlib.Algebra.Order.Group.Abs
import Mathlib.Algebra.Order.Ring.Int
import Mathlib.Algebra.Ring.Basic
import SignalVector.Scalar.Expression
import SignalVector.Scalar.Term

/-! Simplification keeps the meaning. An expression that the operators build stands for the number
that the same operators give on numbers, whatever was folded, dropped or stripped on the way. -/
namespace SignalVector

inductive Atom (R : Type) where
  | number (c : R)
  | name (x : String)
  deriving DecidableEq

namespace Atom

variable {R : Type}

def expression : Atom R → Expression R
  | number c => .constant c
  | name x => .symbol x

def value (values : String → R) : Atom R → R
  | number c => c
  | name x => values x

end Atom

namespace Expression

variable {R : Type}

section Shape

theorem constantOf {e : Expression R} {c : R} (h : e.asConstant = some c) : e = constant c := by
  cases e with
  | constant a => exact congrArg constant (Option.some.inj h)
  | _ => contradiction

/- Comparison is node by node on both sides, so the induction is on one and the cases on the other. -/
theorem sameOf [BEq R] [LawfulBEq R] {e f : Expression R} (h : (e == f) = true) : e = f := by
  change beq e f = true at h
  induction e generalizing f with
  | constant a =>
    cases f with
    | constant b => exact congrArg constant (eq_of_beq h)
    | _ => contradiction
  | symbol a =>
    cases f with
    | symbol b => exact congrArg symbol (eq_of_beq h)
    | _ => contradiction
  | sum a b left right =>
    cases f with
    | sum c d =>
      obtain ⟨first, second⟩ := Bool.and_eq_true_iff.mp h
      rw [left first, right second]
    | _ => contradiction
  | product a b left right =>
    cases f with
    | product c d =>
      obtain ⟨first, second⟩ := Bool.and_eq_true_iff.mp h
      rw [left first, right second]
    | _ => contradiction
  | negation a inside =>
    cases f with
    | negation b => rw [inside h]
    | _ => contradiction
  | absolute a inside =>
    cases f with
    | absolute b => rw [inside h]
    | _ => contradiction
  | greater a b left right =>
    cases f with
    | greater c d =>
      obtain ⟨first, second⟩ := Bool.and_eq_true_iff.mp h
      rw [left first, right second]
    | _ => contradiction

theorem zeroOf [Zero R] [BEq R] [LawfulBEq R] {e : Expression R} (h : e.isZero = true) :
    e = constant 0 := by
  unfold isZero at h
  split at h
  · rename_i c found
    rw [constantOf found, eq_of_beq h]
  · contradiction

theorem oneOf [One R] [BEq R] [LawfulBEq R] {e : Expression R} (h : e.isOne = true) :
    e = constant 1 := by
  unfold isOne at h
  split at h
  · rename_i c found
    rw [constantOf found, eq_of_beq h]
  · contradiction

end Shape

section Operators

variable [CommRing R] [Magnitude R] {env : String → Option R} {e f : Expression R} {x y : R}

theorem evaluateConstant {c : R} (h : (constant c).evaluate env = some x) : c = x :=
  Option.some.inj h

theorem evaluateNeg (inside : e.evaluate env = some x) : (-e).evaluate env = some (-x) := by
  change (neg e).evaluate env = _
  unfold neg
  split
  · rw [← evaluateConstant inside]
    rfl
  · rename_i below
    simp only [evaluate] at inside
    cases value : below.evaluate env with
    | none => simp [value] at inside
    | some z =>
      have negated : -z = x := by simpa [value] using inside
      rw [← negated, neg_neg]
  · simp only [evaluate, inside]
    rfl

variable [BEq R]

theorem evaluateAbs (inside : e.evaluate env = some x) :
    (magnitude e).evaluate env = some (magnitude x) := by
  change (abs e).evaluate env = _
  unfold abs
  split
  · rw [← evaluateConstant inside]
    rfl
  · simp only [evaluate, inside]
    rfl

variable [LawfulBEq R]

theorem evaluateAdd (left : e.evaluate env = some x) (right : f.evaluate env = some y) :
    (e + f).evaluate env = some (x + y) := by
  change (add e f).evaluate env = _
  unfold add
  split
  · rename_i a b first second
    cases constantOf first
    cases constantOf second
    rw [← evaluateConstant left, ← evaluateConstant right]
    rfl
  · split
    · rename_i zero
      cases zeroOf zero
      rw [← evaluateConstant left, zero_add]
      exact right
    · split
      · rename_i zero
        cases zeroOf zero
        rw [← evaluateConstant right, add_zero]
        exact left
      · simp only [evaluate, left, right]
        rfl

theorem evaluateMul (left : e.evaluate env = some x) (right : f.evaluate env = some y) :
    (e * f).evaluate env = some (x * y) := by
  change (mul e f).evaluate env = _
  unfold mul
  split
  · rename_i a b first second
    cases constantOf first
    cases constantOf second
    rw [← evaluateConstant left, ← evaluateConstant right]
    rfl
  · split
    · rename_i zero
      have vanishes : x * y = 0 := by
        rcases Bool.or_eq_true_iff.mp zero with first | second
        · cases zeroOf first
          rw [← evaluateConstant left, zero_mul]
        · cases zeroOf second
          rw [← evaluateConstant right, mul_zero]
      rw [vanishes]
      rfl
    · split
      · rename_i one
        cases oneOf one
        rw [← evaluateConstant left, one_mul]
        exact right
      · split
        · rename_i one
          cases oneOf one
          rw [← evaluateConstant right, mul_one]
          exact left
        · simp only [evaluate, left, right]
          rfl

theorem evaluateSub (left : e.evaluate env = some x) (right : f.evaluate env = some y) :
    (e - f).evaluate env = some (x - y) := by
  rw [sub_eq_add_neg]
  exact evaluateAdd left (evaluateNeg right)

theorem evaluateMax (idempotent : ∀ a : R, larger a a = a) (left : e.evaluate env = some x)
    (right : f.evaluate env = some y) : (larger e f).evaluate env = some (larger x y) := by
  change (max e f).evaluate env = _
  unfold max
  split
  · rename_i a b first second
    cases constantOf first
    cases constantOf second
    rw [← evaluateConstant left, ← evaluateConstant right]
    rfl
  · split
    · rename_i same
      cases sameOf same
      cases left.symm.trans right
      rw [idempotent]
      exact left
    · simp only [evaluate, left, right]
      rfl

/- By induction on the term, with the lemma of its operator in each case. Of the numbers nothing is
asked but the laws of a commutative ring and that the larger of a number and itself is this number,
as in every linear order. -/
theorem evaluatesTerm (idempotent : ∀ a : R, larger a a = a) (t : Term (Atom R))
    (env : String → Option R) (values : String → R)
    (bound : ∀ x, Atom.name x ∈ t.leaves → env x = some (values x)) :
    (t.eval Atom.expression).evaluate env = some (t.eval (Atom.value values)) := by
  induction t with
  | zero => rfl
  | one => rfl
  | leaf i =>
    cases i with
    | number c => rfl
    | name x => exact bound x (List.mem_singleton_self _)
  | neg a inside => exact evaluateNeg (inside bound)
  | magnitude a inside => exact evaluateAbs (inside bound)
  | add a b left right =>
    exact evaluateAdd (left fun x here => bound x (List.mem_append_left _ here))
      (right fun x here => bound x (List.mem_append_right _ here))
  | sub a b left right =>
    exact evaluateSub (left fun x here => bound x (List.mem_append_left _ here))
      (right fun x here => bound x (List.mem_append_right _ here))
  | mul a b left right =>
    exact evaluateMul (left fun x here => bound x (List.mem_append_left _ here))
      (right fun x here => bound x (List.mem_append_right _ here))
  | larger a b left right =>
    exact evaluateMax idempotent (left fun x here => bound x (List.mem_append_left _ here))
      (right fun x here => bound x (List.mem_append_right _ here))

end Operators

theorem evaluatesDistance :
    letI : Magnitude Int := ⟨fun a => |a|, Max.max⟩
    let p : Term (Atom Int) := .leaf (.name "p")
    let distance : Term (Atom Int) := .larger (.sub p p) (.magnitude (.sub p (.leaf (.number 5))))
    (distance.eval Atom.expression).evaluate (fun _ => some 2) = some 3 :=
  letI : Magnitude Int := ⟨fun a => |a|, Max.max⟩
  evaluatesTerm (fun a => max_self a) (.larger (.sub (.leaf (.name "p")) (.leaf (.name "p")))
    (.magnitude (.sub (.leaf (.name "p")) (.leaf (.number 5))))) (fun _ => some 2) (fun _ => 2)
    fun _ _ => rfl

end Expression

end SignalVector
