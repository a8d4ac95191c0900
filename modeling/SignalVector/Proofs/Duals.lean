import SignalVector.Scalar.Dual

/-! What the operations of dual numbers do to the value and to one slot of the derivatives. Of the
numbers themselves no law is used. -/
namespace SignalVector.Dual

variable {R : Type} {n : Nat} {j : Nat}

theorem ext {a b : Dual R n} (value : a.value = b.value)
    (slots : ∀ j (h : j < n), a.derivatives[j] = b.derivatives[j]) : a = b := by
  cases a
  cases b
  cases value
  exact congrArg _ (Vector.ext slots)

section Constants

variable [Zero R]

@[simp] theorem valueConstant (c : R) : (constant c : Dual R n).value = c := rfl

@[simp] theorem slotConstant (c : R) (h : j < n) : (constant c : Dual R n).derivatives[j] = 0 := by
  simp [constant]

@[simp] theorem valueZero : (0 : Dual R n).value = 0 := rfl

@[simp] theorem slotZero (h : j < n) : (0 : Dual R n).derivatives[j] = 0 := slotConstant 0 h

theorem seededSlots [One R] {c : R} {slot : Nat} {a : Dual R n} (made : seeded c slot = .ok a) :
    a.value = c ∧ ∀ j (h : j < n), a.derivatives[j] = if slot = j then 1 else 0 := by
  unfold seeded at made
  split at made
  · cases made
    exact ⟨rfl, fun j h => by simp [Vector.getElem_set]⟩
  · contradiction

end Constants

section Operations

variable (a b : Dual R n)

@[simp] theorem valueAdd [Add R] : (a + b).value = a.value + b.value := rfl

@[simp] theorem slotAdd [Add R] (h : j < n) :
    (a + b).derivatives[j] = a.derivatives[j] + b.derivatives[j] := by
  simp [HAdd.hAdd, Add.add, add]

@[simp] theorem valueMul [Add R] [Mul R] : (a * b).value = a.value * b.value := rfl

@[simp] theorem slotMul [Add R] [Mul R] (h : j < n) : (a * b).derivatives[j] =
    a.derivatives[j] * b.value + a.value * b.derivatives[j] := by
  simp [HMul.hMul, Mul.mul, mul]

variable [One R] [Mul R] [Neg R]

@[simp] theorem valueNeg : (-a).value = a.value * -1 := rfl

@[simp] theorem slotNeg (h : j < n) : (-a).derivatives[j] = a.derivatives[j] * -1 := by
  simp [Neg.neg, neg, scale]

end Operations

end SignalVector.Dual
