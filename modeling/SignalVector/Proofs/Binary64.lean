import Mathlib
import SignalVector.Proofs.ZeroSums
import SignalVector.Scalar.Binary64

/-! Binary64 addition and the two zeros. Numbers are compared by their bits, and all that are no
number have the same bits. A sum is formed exactly and then rounded, and rounding ends in a mantissa
that is not zero, so nothing but negative zeros adds up to one. -/
namespace SignalVector.Binary64

open Float.Model (Format UnpackedFloat totalExponent)
open Float.Model.UnpackedFloat

def negativeZero : Float := -0

def bits (x : Float) : BitVec Format.binary64.numBits := x.toModel.toBits.toBitVec

theorem sameBits {x y : Float} (same : bits x = bits y) : x = y :=
  Float.toBits_inj.mp (UInt64.toBitVec_inj.mp same)

theorem bitsOfUnpacked (x : Float) : pack .binary64 x.toModel.unpack = bits x :=
  pack_unpack_of_valid x.toModel.valid

theorem bitsOfSum (x y : Float) :
    bits (x + y) = pack .binary64 (add .binary64 x.toModel.unpack y.toModel.unpack) := rfl

theorem unpackedZero {x : Float} (sign : Sign) (zero : bits x = packedZero .binary64 sign) :
    x.toModel.unpack = .zero sign :=
  (unpack_eq_zero_iff_of_valid x.toModel.valid).mpr zero

theorem isNegativeZero {x : Float} : x = negativeZero ↔ x.toModel.unpack = .zero .negative := by
  constructor
  · rintro rfl
    exact unpackedZero .negative (by decide)
  · intro zero
    exact sameBits ((unpack_eq_zero_iff_of_valid x.toModel.valid).mp zero)

section Neutral

variable {w : UnpackedFloat}

theorem addNegativeZero (w : UnpackedFloat) : add .binary64 w (.zero .negative) = w := by
  cases w with
  | zero sign => cases sign <;> rfl
  | _ => rfl

theorem addZero (other : w ≠ .zero .negative) : add .binary64 w (.zero .positive) = w := by
  cases w with
  | zero sign =>
    cases sign with
    | positive => rfl
    | negative => exact absurd rfl other
  | _ => rfl

theorem zeroAdd (other : w ≠ .zero .negative) : add .binary64 (.zero .positive) w = w := by
  cases w with
  | zero sign =>
    cases sign with
    | positive => rfl
    | negative => exact absurd rfl other
  | _ => rfl

end Neutral

structure Visible (mantissa : Nat) (exponent : Int) : Prop where
  positive : 0 < mantissa
  small : mantissa < 2 ^ 53
  bound : -1074 ≤ exponent

theorem targetOf (exponent : Int) :
    Format.binary64.targetExponent exponent = max (exponent - 53) (-1074) := rfl

/- Only at the least exponent a mantissa may have leading zeros. -/
theorem finiteFields {x : Float} {sign : Sign} {m : Nat} {e : Int} {positive : 0 < m}
    (finite : x.toModel.unpack = .finite sign m e positive) :
    Visible m e ∧ (m < 2 ^ 52 → e = -1074) := by
  have bias : Format.binary64.exponentBias = 1023 := by decide
  unfold Float.Model.unpack UnpackedFloat.unpack at finite
  dsimp only at finite
  split at finite
  · split at finite <;> nomatch finite
  · split at finite
    · rename_i zero
      split at finite
      · nomatch finite
      · cases finite
        have least : ((0#11).toNat : Int) - 1023 - 52 + 1 = -1074 := rfl
        simp only [zero, bias]
        exact ⟨⟨positive, (BitVec.isLt _).trans (by decide), least.ge⟩, fun _ => least⟩
    · rename_i normal
      have field : (@unpackExponent .binary64 x.toModel.toBits.toBitVec).toNat ≠ 0 :=
        fun zero => normal (BitVec.eq_of_toNat_eq zero)
      cases finite
      have full : 2 ^ 52 ≤ (1#1 ++ @unpackMantissa .binary64 x.toModel.toBits.toBitVec).toNat := by
        rw [BitVec.toNat_append]
        exact Nat.left_le_or
      refine ⟨⟨positive, BitVec.isLt _, ?_⟩, fun short => absurd short full.not_gt⟩
      rw [bias]
      omega

theorem finiteVisible {x : Float} {sign : Sign} {m : Nat} {e : Int} {positive : 0 < m}
    (finite : x.toModel.unpack = .finite sign m e positive) : Visible m e := (finiteFields finite).1

theorem packVisible {m : Nat} {e : Int} (visible : Visible m e) (sign sign' : Sign) :
    UnpackedFloat.pack .binary64 (.finite sign m e visible.positive) ≠ packedZero .binary64 sign' := by
  have bias : Format.binary64.exponentBias = 1023 := by decide
  intro same
  have exponents := congrArg unpackExponent same
  have mantissas := congrArg unpackMantissa same
  unfold UnpackedFloat.pack at exponents mantissas
  dsimp only at exponents mantissas
  split at exponents
  · simp only [packedInfinity, packedZero, unpackExponent_packComponents] at exponents
    exact absurd exponents (by decide)
  · rename_i finite
    split at exponents
    · simp only [packedZero, unpackExponent_packComponents] at exponents
      have field := congrArg BitVec.toNat exponents
      have bound := visible.bound
      simp only [BitVec.toNat_ofNat, bias] at field finite
      change _ = 0 at field
      omega
    · rename_i short
      rw [if_neg finite, if_neg short] at mantissas
      simp only [packedZero, unpackMantissa_packComponents] at mantissas
      have field := congrArg BitVec.toNat mantissas
      have length : m.log2 < 53 := (Nat.log2_lt visible.positive.ne').mpr visible.small
      change ¬ m.log2 + 1 = 53 at short
      have fits : m < 2 ^ 52 := (Nat.log2_lt visible.positive.ne').mp (by omega)
      simp only [BitVec.toNat_ofNat, Nat.mod_eq_of_lt fits] at field
      exact visible.positive.ne' field

theorem shiftedMantissa (n : Nat) (m : ExtendedMantissa) : (m >>> n).mantissa = m.mantissa / 2 ^ n := by
  induction n with
  | zero => exact (Nat.div_one m.mantissa).symm
  | succ n ih =>
    change (m >>> n).mantissa / 2 = _
    rw [ih, Nat.div_div_eq_div_mul, Nat.pow_succ]

theorem exactMantissa (m : Nat) (accuracy : Accuracy) :
    (ExtendedMantissa.ofMantissaAndAccuracy m accuracy).mantissa = m := by
  unfold ExtendedMantissa.ofMantissaAndAccuracy
  split <;> rfl

theorem roundedUp (m : Nat) (accuracy : Accuracy) : m ≤ accuracy.roundToNearestEven m := by
  unfold Accuracy.roundToNearestEven
  split <;> omega

theorem shiftVisible {m : Nat} {e : Int} (positive : 0 < m) (bound : -1074 ≤ e)
    (accuracy : Accuracy) :
    Visible (shiftToTargetExponent .binary64 m e accuracy).1.mantissa
      (shiftToTargetExponent .binary64 m e accuracy).2 := by
  simp only [shiftToTargetExponent, shiftToExponent, targetOf, totalExponent, shiftedMantissa,
    exactMantissa]
  generalize count : (max ((m.log2 : Int) + 1 + e - 53) (-1074) - e).toNat = shift
  have kept : shift ≤ m.log2 := by omega
  have enough : m.log2 + 1 ≤ 53 + shift := by omega
  have low : 2 ^ shift ≤ m :=
    (Nat.pow_le_pow_right (by decide) kept).trans (Nat.log2_self_le positive.ne')
  have high : m < 2 ^ 53 * 2 ^ shift := by
    rw [← Nat.pow_add]
    exact Nat.lt_log2_self.trans_le (Nat.pow_le_pow_right (by decide) enough)
  exact ⟨Nat.div_pos low (by positivity), Nat.div_lt_of_lt_mul (Nat.mul_comm _ _ ▸ high), by omega⟩

/- Rounding may carry into one more digit, so it is followed by a second shift. -/
theorem roundVisible {m : Nat} {e : Int} (positive : 0 < m) (bound : -1074 ≤ e) (sign : Sign) :
    ∃ m' e', ∃ visible : Visible m' e',
      UnpackedFloat.round .binary64 sign m e = .finite sign m' e' visible.positive := by
  unfold UnpackedFloat.round decreaseExponent
  dsimp only
  generalize spread : (e - Format.binary64.targetExponent (totalExponent m e)).toNat = count
  rw [targetOf] at spread
  have widened : 0 < m <<< count := by
    rw [Nat.shiftLeft_eq]
    positivity
  have lowered : -1074 ≤ e - count := by omega
  have first := shiftVisible widened lowered .exact
  have rounded := first.positive.trans_le (roundedUp _
    (shiftToTargetExponent .binary64 (m <<< count) (e - count) .exact).1.accuracy)
  have second := shiftVisible rounded first.bound .exact
  exact ⟨_, _, second, dif_neg second.positive.ne'⟩

theorem packNormalized {m e : Int} (bound : -1074 ≤ e) :
    UnpackedFloat.pack .binary64 (UnpackedFloat.normalize .binary64 m e .positive) ≠
      packedZero .binary64 .negative := by
  unfold UnpackedFloat.normalize
  split
  · rename_i less
    have nonzero := Int.compare_eq_lt.mp less
    obtain ⟨m', e', visible, rounded⟩ := roundVisible (m := (-m).toNat) (by omega) bound .negative
    rw [rounded]
    exact packVisible visible _ _
  · decide
  · rename_i more
    have nonzero := Int.compare_eq_gt.mp more
    obtain ⟨m', e', visible, rounded⟩ := roundVisible (m := m.toNat) (by omega) bound .positive
    rw [rounded]
    exact packVisible visible _ _

theorem packNegativeZero {sign : Sign}
    (zero : packedZero .binary64 sign = packedZero .binary64 .negative) : sign = .negative := by
  cases sign with
  | positive => exact absurd zero (by decide)
  | negative => rfl

theorem packInfinity (sign : Sign) :
    packedInfinity .binary64 sign ≠ packedZero .binary64 .negative := by
  cases sign <;> decide

theorem packNaN : packedNaN .binary64 ≠ packedZero .binary64 .negative := by decide

def Visibly (w : UnpackedFloat) : Prop :=
  ∀ sign m e positive, w = .finite sign m e positive → Visible m e

theorem addNegative {w w' : UnpackedFloat} (visibly : Visibly w) (visibly' : Visibly w')
    (packed : UnpackedFloat.pack .binary64 (add .binary64 w w') = packedZero .binary64 .negative) :
    w = .zero .negative ∧ w' = .zero .negative := by
  cases w with
  | notANumber => exact absurd packed packNaN
  | infinity sign =>
    cases w' with
    | notANumber => exact absurd packed packNaN
    | infinity sign' =>
      simp only [add] at packed
      split at packed
      · exact absurd packed (packInfinity sign)
      · exact absurd packed packNaN
    | zero sign' => exact absurd packed (packInfinity sign)
    | finite sign' m e positive => exact absurd packed (packInfinity sign)
  | zero sign =>
    cases w' with
    | notANumber => exact absurd packed packNaN
    | infinity sign' => exact absurd packed (packInfinity sign')
    | zero sign' =>
      simp only [add] at packed
      split at packed
      · rename_i same
        cases packNegativeZero packed
        cases eq_of_beq same
        exact ⟨rfl, rfl⟩
      · cases packNegativeZero packed
    | finite sign' m e positive =>
      exact absurd packed (packVisible (visibly' _ _ _ _ rfl) sign' .negative)
  | finite sign m e positive =>
    cases w' with
    | notANumber => exact absurd packed packNaN
    | infinity sign' => exact absurd packed (packInfinity sign')
    | zero sign' => exact absurd packed (packVisible (visibly _ _ _ _ rfl) sign .negative)
    | finite sign' m' e' positive' =>
      have bound : -1074 ≤ min e e' :=
        le_min (visibly _ _ _ _ rfl).bound (visibly' _ _ _ _ rfl).bound
      exact absurd packed (packNormalized bound)

theorem signedZero : SignedZero negativeZero where
  left x other := by
    refine sameBits ?_
    rw [bitsOfSum, unpackedZero .positive (by decide : bits 0 = _),
      zeroAdd fun zero => other (isNegativeZero.mpr zero), bitsOfUnpacked]
  right x other := by
    refine sameBits ?_
    rw [bitsOfSum, unpackedZero .positive (by decide : bits 0 = _),
      addZero fun zero => other (isNegativeZero.mpr zero), bitsOfUnpacked]
  neutral x := by
    refine sameBits ?_
    rw [bitsOfSum, isNegativeZero.mp rfl, addNegativeZero, bitsOfUnpacked]
  closed x y sum := by
    have packed := congrArg bits sum
    obtain ⟨left, right⟩ := addNegative (fun _ _ _ _ => finiteVisible) (fun _ _ _ _ => finiteVisible)
      packed
    exact ⟨isNegativeZero.mpr left, isNegativeZero.mpr right⟩
  zero := by decide
  alike := by decide

end SignalVector.Binary64
