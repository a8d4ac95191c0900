import SignalVector.Proofs.Comparison
import SignalVector.Proofs.Duals
import SignalVector.Proofs.Simplification

/-! Numbers of which products may be turned around and a leading zero left out, up to a relation that
sums respect. Binary64 numbers are such numbers up to the sign of zero, and dual numbers and
expressions over such numbers are again. -/
namespace SignalVector

variable {R : Type}

structure Interchange [Zero R] [Add R] [Mul R] (alike : R → R → Prop) : Prop where
  refl : ∀ a, alike a a
  trans : ∀ {a b c}, alike a b → alike b c → alike a c
  mul : ∀ a b, alike (a * b) (b * a)
  zero : ∀ a, alike a (0 + a)
  add : ∀ a {b c}, alike b c → alike (a + b) (a + c)

namespace Interchange

variable [Zero R] [Add R] [Mul R] {alike : R → R → Prop}

theorem equality (mul : ∀ a b : R, a * b = b * a) (zero : ∀ a : R, 0 + a = a) :
    Interchange (Eq : R → R → Prop) where
  refl _ := rfl
  trans first second := first.trans second
  mul := mul
  zero a := (zero a).symm
  add a _ _ same := congrArg (a + ·) same

theorem accumulates (laws : Interchange alike) (old scale x : R) :
    alike (old + scale * x) (old + (0 + x * scale)) :=
  laws.add old (laws.trans (laws.mul scale x) (laws.zero (x * scale)))

end Interchange

namespace Binary64

open Float.Model (UnpackedFloat)
open Float.Model.UnpackedFloat

theorem signComm (sign sign' : Sign) : sign * sign' = sign' * sign := by
  cases sign <;> cases sign' <;> rfl

/- Signs, mantissas and exponents are turned around each by themselves. -/
theorem unpackedMulComm (w w' : UnpackedFloat) : mul .binary64 w w' = mul .binary64 w' w := by
  cases w <;> cases w' <;> simp only [UnpackedFloat.mul, signComm, Nat.mul_comm, Int.add_comm]

theorem unpackedAddComm (w w' : UnpackedFloat) : add .binary64 w w' = add .binary64 w' w := by
  cases w with
  | notANumber => cases w' <;> rfl
  | infinity sign =>
    cases w' with
    | infinity sign' => cases sign <;> cases sign' <;> rfl
    | _ => rfl
  | zero sign =>
    cases w' with
    | zero sign' => cases sign <;> cases sign' <;> rfl
    | _ => rfl
  | finite sign m e positive =>
    cases w' with
    | finite sign' m' e' positive' =>
      simp only [UnpackedFloat.add, Int.add_comm, Int.min_comm]
    | _ => rfl

theorem mulComm (x y : Float) : x * y = y * x :=
  sameBits (by rw [bitsOfProduct, bitsOfProduct, unpackedMulComm])

theorem addComm (x y : Float) : x + y = y + x :=
  sameBits (by rw [bitsOfSum, bitsOfSum, unpackedAddComm])

theorem Alike.of {x y : Float} (equal : x = y) : Alike x y := alikeIff.mpr (.inl equal)

theorem Alike.symm {x y : Float} (alike : Alike x y) : Alike y x := by
  rcases alikeIff.mp alike with rfl | ⟨rfl, rfl⟩ | ⟨rfl, rfl⟩
  · exact alike
  · decide
  · decide

theorem Alike.trans {x y z : Float} (first : Alike x y) (second : Alike y z) : Alike x z := by
  rcases alikeIff.mp first with rfl | ⟨rfl, rfl⟩ | ⟨rfl, rfl⟩
  · exact second
  · rcases alikeIff.mp second with rfl | ⟨same, rfl⟩ | ⟨-, rfl⟩
    · exact first
    · exact first
    · exact .inl (by decide)
  · rcases alikeIff.mp second with rfl | ⟨-, rfl⟩ | ⟨same, rfl⟩
    · exact first
    · exact .inl (by decide)
    · exact first

theorem Alike.add (a : Float) {x y : Float} (alike : Alike x y) : Alike (a + x) (a + y) := by
  have zeros : Alike (a + 0) (a + -0) := by
    by_cases negative : a = -0
    · rw [negative]
      decide
    · exact .of ((signedZero.right a negative).trans (signedZero.neutral a).symm)
  rcases alikeIff.mp alike with rfl | ⟨rfl, rfl⟩ | ⟨rfl, rfl⟩
  · exact .of rfl
  · exact zeros
  · exact Alike.symm zeros

theorem interchange : Interchange Alike where
  refl _ := .of rfl
  trans := Alike.trans
  mul x y := .of (mulComm x y)
  zero x := by
    by_cases negative : x = -0
    · rw [negative]
      decide
    · exact .of (signedZero.left x negative).symm
  add := Alike.add

theorem Alike.zero {x y : Float} (alike : Alike x y) : (x == 0) = (y == 0) := by
  rcases alikeIff.mp alike with rfl | ⟨rfl, rfl⟩ | ⟨rfl, rfl⟩ <;> rfl

end Binary64

namespace Dual

variable {n : Nat}

structure SlotsAlike (alike : R → R → Prop) (a b : Dual R n) : Prop where
  value : alike a.value b.value
  slots : ∀ j (h : j < n), alike a.derivatives[j] b.derivatives[j]

theorem interchange [Zero R] [Add R] [Mul R] {alike : R → R → Prop} (laws : Interchange alike)
    (swap : ∀ a b : R, alike (a + b) (b + a)) :
    Interchange (SlotsAlike alike : Dual R n → Dual R n → Prop) where
  refl a := ⟨laws.refl _, fun j h => laws.refl _⟩
  trans first second :=
    ⟨laws.trans first.value second.value, fun j h => laws.trans (first.slots j h) (second.slots j h)⟩
  mul a b := by
    refine ⟨laws.mul _ _, fun j h => ?_⟩
    rw [slotMul, slotMul]
    have first := laws.add (a.derivatives[j] * b.value) (laws.mul a.value b.derivatives[j])
    have second := laws.add (b.derivatives[j] * a.value) (laws.mul a.derivatives[j] b.value)
    exact laws.trans first (laws.trans (swap _ _) second)
  zero a := by
    refine ⟨laws.zero _, fun j h => ?_⟩
    rw [slotAdd, slotZero]
    exact laws.zero _
  add a b c same := by
    refine ⟨laws.add _ same.value, fun j h => ?_⟩
    rw [slotAdd, slotAdd]
    exact laws.add _ (same.slots j h)

end Dual

namespace Expression

variable {e f : Expression R}

theorem addOther [Zero R] [Add R] [BEq R] (other : e.asConstant = none ∨ f.asConstant = none) :
    e + f = if e.isZero then f else if f.isZero then e else sum e f := by
  change add e f = _
  unfold add
  split
  · rename_i left right
    simp [left, right] at other
  · rfl

theorem mulOther [Zero R] [One R] [Mul R] [BEq R]
    (other : e.asConstant = none ∨ f.asConstant = none) :
    e * f = if e.isZero || f.isZero then 0 else if e.isOne then f else if f.isOne then e
      else product e f := by
  change mul e f = _
  unfold mul
  split
  · rename_i left right
    simp [left, right] at other
  · rfl

theorem zeroConstant [Zero R] [BEq R] (other : e.asConstant = none) : e.isZero = false := by
  simp [isZero, other]

theorem oneConstant [One R] [BEq R] (other : e.asConstant = none) : e.isOne = false := by
  simp [isOne, other]

theorem mulTurned [Zero R] [One R] [Mul R] [BEq R] (other : e.asConstant = none)
    (f : Expression R) : e * f = f * e ∨ e * f = product e f ∧ f * e = product f e := by
  rw [mulOther (.inl other), mulOther (.inr other), Bool.or_comm f.isZero, oneConstant other]
  simp only [Bool.false_eq_true, if_false]
  split
  · exact .inl rfl
  · split
    · exact .inl rfl
    · exact .inr ⟨rfl, rfl⟩

variable [Add R] [Mul R] [Neg R] [Magnitude R] {alike : R → R → Prop}

/- In every environment both stand for related numbers or for none. One is a constant if the other is,
since sums of constants are folded. -/
structure ValuesAlike (alike : R → R → Prop) (e f : Expression R) : Prop where
  values : ∀ env, Option.Rel alike (e.evaluate env) (f.evaluate env)
  constants : Option.Rel alike e.asConstant f.asConstant

theorem bothConstant {c d : R} (same : alike c d) : ValuesAlike alike (constant c) (constant d) :=
  ⟨fun _ => .some same, .some same⟩

theorem ValuesAlike.shapes {f g : Expression R} (same : ValuesAlike alike f g) :
    f.asConstant = none ∧ g.asConstant = none ∨
      ∃ b c, f = constant b ∧ g = constant c ∧ alike b c := by
  have constants := same.constants
  cases left : f.asConstant with
  | none =>
    cases right : g.asConstant with
    | none => exact .inl ⟨rfl, rfl⟩
    | some c => rw [left, right] at constants; nomatch constants
  | some b =>
    cases right : g.asConstant with
    | none => rw [left, right] at constants; nomatch constants
    | some c =>
      rw [left, right] at constants
      cases constants with
      | some here => exact .inr ⟨b, c, constantOf left, constantOf right, here⟩

section Laws

variable [Zero R] (laws : Interchange alike)

include laws

theorem sameValues (e : Expression R) : ValuesAlike alike e e := by
  have same : ∀ o : Option R, Option.Rel alike o o := by
    intro o
    cases o with
    | none => exact .none
    | some a => exact .some (laws.refl a)
  exact ⟨fun env => same _, same _⟩

theorem ValuesAlike.trans {e f g : Expression R} (first : ValuesAlike alike e f)
    (second : ValuesAlike alike f g) : ValuesAlike alike e g := by
  have through : ∀ {o o' o'' : Option R}, Option.Rel alike o o' → Option.Rel alike o' o'' →
      Option.Rel alike o o'' := by
    intro o o' o'' here there
    cases here with
    | none => exact there
    | some here =>
      cases there with
      | some there => exact .some (laws.trans here there)
  exact ⟨fun env => through (first.values env) (second.values env),
    through first.constants second.constants⟩

theorem productsAlike (e f : Expression R) : ValuesAlike alike (product e f) (product f e) := by
  refine ⟨fun env => ?_, .none⟩
  simp only [evaluate]
  cases e.evaluate env with
  | none =>
    cases f.evaluate env with
    | none => exact .none
    | some b => exact .none
  | some a =>
    cases f.evaluate env with
    | none => exact .none
    | some b => exact .some (laws.mul a b)

theorem sumsAlike (e : Expression R) {f g : Expression R} (same : ValuesAlike alike f g) :
    ValuesAlike alike (sum e f) (sum e g) := by
  refine ⟨fun env => ?_, .none⟩
  have values := same.values env
  simp only [evaluate]
  cases e.evaluate env with
  | none => exact .none
  | some a =>
    generalize f.evaluate env = o, g.evaluate env = o' at values
    cases values with
    | none => exact .none
    | some here => exact .some (laws.add a here)

theorem zeroAlike [BEq R] (e : Expression R) : ValuesAlike alike e (0 + e) := by
  cases known : e.asConstant with
  | some c =>
    cases constantOf known
    exact bothConstant (laws.zero c)
  | none =>
    rw [addOther (.inr known), zeroConstant known]
    split
    · exact sameValues laws e
    · refine ⟨fun env => ?_, known ▸ .none⟩
      change Option.Rel alike (e.evaluate env) (do return 0 + (← e.evaluate env))
      cases e.evaluate env with
      | none => exact .none
      | some b => exact .some (laws.zero b)

theorem mulAlike [One R] [BEq R] (e f : Expression R) : ValuesAlike alike (e * f) (f * e) := by
  cases left : e.asConstant with
  | none =>
    rcases mulTurned left f with same | ⟨here, there⟩
    · rw [same]
      exact sameValues laws (f * e)
    · rw [here, there]
      exact productsAlike laws e f
  | some a =>
    cases right : f.asConstant with
    | none =>
      rcases mulTurned right e with same | ⟨there, here⟩
      · rw [same]
        exact sameValues laws (e * f)
      · rw [here, there]
        exact productsAlike laws e f
    | some b =>
      cases constantOf left
      cases constantOf right
      exact bothConstant (laws.mul a b)

theorem addAlike [BEq R] (zeros : ∀ {x y : R}, alike x y → (x == 0) = (y == 0))
    (e : Expression R) {f g : Expression R} (same : ValuesAlike alike f g) :
    ValuesAlike alike (e + f) (e + g) := by
  rcases same.shapes with ⟨left, right⟩ | ⟨b, c, rfl, rfl, here⟩
  · rw [addOther (.inr left), addOther (.inr right), zeroConstant left, zeroConstant right]
    split
    · exact same
    · exact sumsAlike laws e same
  · cases known : e.asConstant with
    | some a =>
      cases constantOf known
      exact bothConstant (laws.add a here)
    | none =>
      have dropped : (constant b).isZero = (constant c).isZero := zeros here
      rw [addOther (.inl known), addOther (.inl known), zeroConstant known, dropped]
      simp only [Bool.false_eq_true, if_false]
      split
      · exact sameValues laws e
      · exact sumsAlike laws e same

theorem interchange [One R] [BEq R] (zeros : ∀ {x y : R}, alike x y → (x == 0) = (y == 0)) :
    Interchange (ValuesAlike alike : Expression R → Expression R → Prop) where
  refl := sameValues laws
  trans first second := first.trans laws second
  mul := mulAlike laws
  zero := zeroAlike laws
  add e _ _ same := addAlike laws zeros e same

end Laws

end Expression

end SignalVector
