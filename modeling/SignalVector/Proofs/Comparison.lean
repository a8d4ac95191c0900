import SignalVector.Proofs.Binary64

/-! Comparison of binary64 numbers. What is no number is neither less nor more than anything, and
the two zeros compare alike. To multiply a negative number by minus one is exact: it takes the sign
away. -/
namespace SignalVector.Binary64

open Float.Model (Format UnpackedFloat totalExponent)
open Float.Model.UnpackedFloat

theorem bitsOfProduct (x y : Float) :
    bits (x * y) = pack .binary64 (mul .binary64 x.toModel.unpack y.toModel.unpack) := rfl

theorem bitsOfAbs (x : Float) : bits x.abs = pack .binary64 x.toModel.unpack.abs := rfl

theorem lessUnpacked {x y : Float} :
    x < y ↔ x.toModel.unpack.compare y.toModel.unpack = some .lt := by
  change (decide (Float.Model.lt x.toModel y.toModel = true)) = true ↔ _
  rw [decide_eq_true_iff]
  exact beq_iff_eq

section Order

variable (w : UnpackedFloat)

theorem compareNaN : UnpackedFloat.compare w .notANumber = none := by
  cases w with
  | infinity sign => cases sign <;> rfl
  | finite sign m e positive => cases sign <;> rfl
  | _ => rfl

theorem compareZero (sign sign' : Sign) :
    UnpackedFloat.compare (.zero sign) w = UnpackedFloat.compare (.zero sign') w := by
  cases w with
  | infinity sign => cases sign <;> rfl
  | finite sign m e positive => cases sign <;> rfl
  | _ => rfl

theorem compareWithZero (sign sign' : Sign) :
    UnpackedFloat.compare w (.zero sign) = UnpackedFloat.compare w (.zero sign') := by
  cases w with
  | infinity sign => cases sign <;> rfl
  | finite sign m e positive => cases sign <;> rfl
  | _ => rfl

end Order

theorem unpackedZeros : (0 : Float).toModel.unpack = .zero .positive ∧
    (-0 : Float).toModel.unpack = .zero .negative := ⟨rfl, rfl⟩

theorem unpackedNaN : Float.nan.toModel.unpack = .notANumber := rfl

theorem isNaN {x : Float} : x.isNaN = true ↔ x = Float.nan := by
  rw [Float.isNaN_eq_decide_eq_nan, decide_eq_true_iff]

theorem notLessNaN (x : Float) : ¬ x < Float.nan := by
  rw [lessUnpacked, unpackedNaN, compareNaN]
  exact nofun

theorem nanNotLess (x : Float) : ¬ Float.nan < x := by
  rw [lessUnpacked, unpackedNaN]
  exact nofun

def Alike (x y : Float) : Prop := (x == y) = true ∨ x.isNaN = true ∧ y.isNaN = true

instance (x y : Float) : Decidable (Alike x y) := inferInstanceAs (Decidable (_ ∨ _))

/- There is one value that is no number, so only the zeros are alike and different. -/
theorem alikeIff {x y : Float} : Alike x y ↔ x = y ∨ x = 0 ∧ y = -0 ∨ x = -0 ∧ y = 0 := by
  rw [Alike, Float.beq_iff_ne_nan_and_eq, isNaN, isNaN]
  constructor
  · rintro (⟨-, -, same⟩ | ⟨rfl, rfl⟩)
    · exact same
    · exact .inl rfl
  · rintro (rfl | ⟨rfl, rfl⟩ | ⟨rfl, rfl⟩)
    · by_cases number : x = Float.nan
      · exact .inr ⟨number, number⟩
      · exact .inl ⟨number, number, .inl rfl⟩
    · exact .inl ⟨by decide, by decide, .inr (.inl ⟨rfl, rfl⟩)⟩
    · exact .inl ⟨by decide, by decide, .inr (.inr ⟨rfl, rfl⟩)⟩

theorem Alike.nanIff {x y : Float} (alike : Alike x y) : x = Float.nan ↔ y = Float.nan := by
  rcases alikeIff.mp alike with rfl | ⟨rfl, rfl⟩ | ⟨rfl, rfl⟩
  · rfl
  · decide
  · decide

theorem Alike.less {x x' y y' : Float} (left : Alike x x') (right : Alike y y') :
    x < y ↔ x' < y' := by
  have first : x < y ↔ x' < y := by
    rcases alikeIff.mp left with rfl | ⟨rfl, rfl⟩ | ⟨rfl, rfl⟩
    · rfl
    · rw [lessUnpacked, lessUnpacked, unpackedZeros.1, unpackedZeros.2, compareZero]
    · rw [lessUnpacked, lessUnpacked, unpackedZeros.1, unpackedZeros.2, compareZero]
  have second : x' < y ↔ x' < y' := by
    rcases alikeIff.mp right with rfl | ⟨rfl, rfl⟩ | ⟨rfl, rfl⟩
    · rfl
    · rw [lessUnpacked, lessUnpacked, unpackedZeros.1, unpackedZeros.2, compareWithZero]
    · rw [lessUnpacked, lessUnpacked, unpackedZeros.1, unpackedZeros.2, compareWithZero]
  exact first.trans second

section Exact

theorem finiteFull {x : Float} {sign : Sign} {m : Nat} {e : Int} {positive : 0 < m}
    (finite : x.toModel.unpack = .finite sign m e positive) :
    Format.binary64.targetExponent (totalExponent m e) = e := by
  obtain ⟨visible, least⟩ := finiteFields finite
  rw [targetOf, totalExponent]
  by_cases short : m < 2 ^ 52
  · have digits : m.log2 < 52 := (Nat.log2_lt positive.ne').mpr short
    rw [least short]
    omega
  · have digits : m.log2 = 52 :=
      (Nat.log2_eq_iff positive.ne').mpr ⟨Nat.not_lt.mp short, visible.small⟩
    have bound := visible.bound
    rw [digits]
    omega

theorem shiftedOut (m k : Nat) :
    (ExtendedMantissa.mk (m * 2 ^ k) false false) >>> k = ⟨m, false, false⟩ := by
  induction k generalizing m with
  | zero => rw [pow_zero, mul_one]; rfl
  | succ k ih =>
    change ((ExtendedMantissa.mk (m * 2 ^ (k + 1)) false false) >>> k).shiftRightOne = _
    rw [pow_succ', ← mul_assoc, ih, ExtendedMantissa.shiftRightOne]
    simp

theorem roundExact {m : Nat} {e : Int} (positive : 0 < m)
    (full : Format.binary64.targetExponent (totalExponent m e) = e) (sign : Sign) :
    roundWithAccuracy .binary64 sign (m * 2 ^ 52) (e + -52) .exact = .finite sign m e positive := by
  have total : totalExponent (m * 2 ^ 52) (e + -52) = totalExponent m e := by
    have widened : (m * 2 ^ 52).log2 = m.log2 + 52 := by
      refine (Nat.log2_eq_iff (by positivity)).mpr ⟨?_, ?_⟩
      · rw [pow_add]
        exact Nat.mul_le_mul_right _ (Nat.log2_self_le positive.ne')
      · rw [Nat.add_right_comm, pow_add]
        exact Nat.mul_lt_mul_of_pos_right Nat.lt_log2_self (by positivity)
    simp only [totalExponent, widened]
    omega
  have first : shiftToTargetExponent .binary64 (m * 2 ^ 52) (e + -52) .exact =
      (⟨m, false, false⟩, e) := by
    have count : (e - (e + -52)).toNat = 52 := by omega
    simp only [shiftToTargetExponent, shiftToExponent, total, full, count]
    rw [ExtendedMantissa.ofMantissaAndAccuracy, shiftedOut]
    simp
  have second : shiftToTargetExponent .binary64 m e .exact = (⟨m, false, false⟩, e) := by
    simp only [shiftToTargetExponent, shiftToExponent, full, Int.sub_self]
    exact Prod.ext rfl (Int.add_zero e)
  have kept : (ExtendedMantissa.mk m false false).roundedMantissa = m := rfl
  unfold roundWithAccuracy
  simp only [first, kept, second]
  exact dif_neg positive.ne'

end Exact

section Absolute

theorem unpackedNegativeOne :
    (-1 : Float).toModel.unpack = .finite .negative (2 ^ 52) (-52) (by decide) := rfl

theorem absSame {x : Float} (same : x.toModel.unpack.abs = x.toModel.unpack) : x.abs = x :=
  sameBits (by rw [bitsOfAbs, same, bitsOfUnpacked])

theorem absNegative {x : Float} (less : x < 0) : x * -1 = x.abs := by
  rw [lessUnpacked, unpackedZeros.1] at less
  refine sameBits ?_
  rw [bitsOfProduct, bitsOfAbs, unpackedNegativeOne]
  cases shown : x.toModel.unpack with
  | notANumber => rfl
  | zero sign => rw [shown] at less; nomatch less
  | infinity sign =>
    cases sign with
    | positive => rw [shown] at less; nomatch less
    | negative => rfl
  | finite sign m e positive =>
    cases sign with
    | positive => rw [shown] at less; nomatch less
    | negative => exact congrArg (pack .binary64) (roundExact positive (finiteFull shown) .positive)

theorem absOther {x : Float} (other : ¬ x < 0) : Alike x x.abs := by
  rw [lessUnpacked, unpackedZeros.1] at other
  rw [alikeIff]
  cases shown : x.toModel.unpack with
  | notANumber => exact .inl (absSame (shown ▸ rfl)).symm
  | zero sign =>
    cases sign with
    | positive => exact .inl (absSame (shown ▸ rfl)).symm
    | negative =>
      have here : x = -0 := isNegativeZero.mpr shown
      exact .inr (.inr ⟨here, here ▸ rfl⟩)
  | infinity sign =>
    cases sign with
    | positive => exact .inl (absSame (shown ▸ rfl)).symm
    | negative => exact absurd (shown ▸ rfl) other
  | finite sign m e positive =>
    cases sign with
    | positive => exact .inl (absSame (shown ▸ rfl)).symm
    | negative => exact absurd (shown ▸ rfl) other

theorem packNumber {m : Nat} {e : Int} (positive : 0 < m) (sign : Sign) :
    pack .binary64 (.finite sign m e positive) ≠ packedNaN .binary64 := by
  intro same
  have exponents := congrArg unpackExponent same
  unfold UnpackedFloat.pack at same exponents
  dsimp only at same exponents
  split at exponents
  · rename_i beyond
    rw [if_pos beyond] at same
    cases sign <;> exact absurd same (by decide)
  · rename_i within
    split at exponents
    · simp only [packedNaN, unpackExponent_packComponents] at exponents
      have field := congrArg BitVec.toNat exponents
      simp only [BitVec.toNat_ofNat] at field
      change _ = 2047 at field
      omega
    · simp only [packedNaN, unpackExponent_packComponents] at exponents
      exact absurd exponents (by decide)

theorem absNaN {x : Float} : x.abs = Float.nan ↔ x = Float.nan := by
  constructor
  · intro same
    have packed : pack .binary64 x.toModel.unpack.abs = packedNaN .binary64 := congrArg bits same
    cases shown : x.toModel.unpack with
    | notANumber => exact (absSame (shown ▸ rfl)).symm.trans same
    | zero sign =>
      rw [shown] at packed
      exact absurd packed (by cases sign <;> decide)
    | infinity sign =>
      rw [shown] at packed
      exact absurd packed (by cases sign <;> decide)
    | finite sign m e positive =>
      rw [shown] at packed
      exact absurd packed (packNumber positive .positive)
  · rintro rfl
    decide

end Absolute

end SignalVector.Binary64
