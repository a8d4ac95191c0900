import SignalVector.Proofs.Comparison

/-! The order of binary64 numbers by rank. A number ranks by its class first, and finite numbers of
one sign by exponent and mantissa; the zeros share a rank, and what is no number stands below all. -/
namespace SignalVector.Binary64

open Float.Model (UnpackedFloat)
open Float.Model.UnpackedFloat

def Rank : Type := Int ×ₗ Int ×ₗ Int

instance : LinearOrder Rank := inferInstanceAs (LinearOrder (Int ×ₗ Int ×ₗ Int))

def ranked (level exponent mantissa : Int) : Rank := toLex (level, toLex (exponent, mantissa))

def rankOf : UnpackedFloat → Rank
  | .notANumber => ranked (-3) 0 0
  | .infinity .negative => ranked (-2) 0 0
  | .finite .negative m e _ => ranked (-1) (-e) (-m)
  | .zero _ => ranked 0 0 0
  | .finite .positive m e _ => ranked 1 e m
  | .infinity .positive => ranked 2 0 0

theorem levelLess {l l' e e' m m' : Int} (less : l < l') : ranked l e m < ranked l' e' m' :=
  Prod.Lex.toLex_lt_toLex.mpr (.inl less)

theorem compareRanked (l l' e e' m m' : Int) : compare (ranked l e m) (ranked l' e' m') =
    (compare l l').then ((compare e e').then (compare m m')) := rfl

theorem compareNegated (a b : Int) : compare (-a) (-b) = (compare a b).swap := by
  rw [Int.compare_swap]
  rcases lt_trichotomy a b with h | rfl | h
  · rw [Int.compare_eq_gt.mpr (by omega), Int.compare_eq_gt.mpr (by omega)]
  · simp
  · rw [Int.compare_eq_lt.mpr (by omega), Int.compare_eq_lt.mpr (by omega)]

theorem compareWhole (a b : Nat) : compare (a : Int) (b : Int) = compare a b := by
  rcases lt_trichotomy a b with h | rfl | h
  · rw [Nat.compare_eq_lt.mpr h, Int.compare_eq_lt.mpr (by omega)]
  · simp
  · rw [Nat.compare_eq_gt.mpr h, Int.compare_eq_gt.mpr (by omega)]

section Unpacked

variable {w w' : UnpackedFloat}

theorem rankLeast : rankOf .notANumber < rankOf w ↔ w ≠ .notANumber := by
  cases w with
  | notANumber => exact iff_of_false (lt_irrefl _) fun other => other rfl
  | infinity sign => cases sign <;> exact iff_of_true (levelLess (by decide)) nofun
  | zero sign => exact iff_of_true (levelLess (by decide)) nofun
  | finite sign m e positive => cases sign <;> exact iff_of_true (levelLess (by decide)) nofun

/- The classes are told apart by their levels, so the fields are compared within one class only. -/
theorem compareRank (left : w ≠ .notANumber) (right : w' ≠ .notANumber) :
    UnpackedFloat.compare w w' = some (compare (rankOf w) (rankOf w')) := by
  cases w with
  | notANumber => exact absurd rfl left
  | infinity sign =>
    cases w' with
    | notANumber => exact absurd rfl right
    | infinity sign' => cases sign <;> cases sign' <;> rfl
    | zero sign' => cases sign <;> rfl
    | finite sign' m e positive => cases sign <;> cases sign' <;> rfl
  | zero sign =>
    cases w' with
    | notANumber => exact absurd rfl right
    | infinity sign' => cases sign' <;> rfl
    | zero sign' => rfl
    | finite sign' m e positive => cases sign' <;> rfl
  | finite sign m e positive =>
    cases w' with
    | notANumber => exact absurd rfl right
    | infinity sign' => cases sign <;> cases sign' <;> rfl
    | zero sign' => cases sign <;> rfl
    | finite sign' m' e' positive' =>
      cases sign with
      | positive =>
        cases sign' with
        | negative => rfl
        | positive =>
          simp only [rankOf, compareRanked, compareWhole]
          rfl
      | negative =>
        cases sign' with
        | positive => rfl
        | negative =>
          simp only [rankOf, compareRanked, compareWhole, compareNegated, ← Ordering.swap_then]
          rfl

end Unpacked

def rank (x : Float) : Rank := rankOf x.toModel.unpack

section Floats

variable {x y : Float}

theorem unpackedNumber : x.toModel.unpack = .notANumber ↔ x = Float.nan := by
  constructor
  · intro none
    exact sameBits ((unpack_eq_notANumber_iff_of_valid x.toModel.valid).mp none)
  · rintro rfl
    exact unpackedNaN

theorem atMostUnpacked :
    x ≤ y ↔ (x.toModel.unpack.compare y.toModel.unpack).any Ordering.isLE = true := by
  change (decide (Float.Model.le x.toModel y.toModel = true)) = true ↔ _
  rw [decide_eq_true_iff]
  rfl

theorem rankNaN : rank Float.nan < rank y ↔ y ≠ Float.nan := by
  rw [rank, unpackedNaN, rank, rankLeast, ne_eq, unpackedNumber]

theorem comparedNumbers (left : x ≠ Float.nan) (right : y ≠ Float.nan) :
    x.toModel.unpack.compare y.toModel.unpack = some (compare (rank x) (rank y)) :=
  compareRank (mt unpackedNumber.mp left) (mt unpackedNumber.mp right)

theorem lessRank : x < y ↔ x ≠ Float.nan ∧ rank x < rank y := by
  by_cases left : x = Float.nan
  · exact iff_of_false (left ▸ nanNotLess y) fun less => less.1 left
  · rw [and_iff_right left]
    by_cases right : y = Float.nan
    · exact iff_of_false (right ▸ notLessNaN x) (right ▸ (rankNaN.mpr left).not_gt)
    · rw [lessUnpacked, comparedNumbers left right, Option.some_inj, compare_lt_iff_lt]

theorem atMostRank : x ≤ y ↔ x ≠ Float.nan ∧ rank x ≤ rank y := by
  rw [atMostUnpacked]
  by_cases left : x = Float.nan
  · rw [left, unpackedNaN]
    exact iff_of_false nofun fun most => most.1 rfl
  · rw [and_iff_right left]
    by_cases right : y = Float.nan
    · rw [right, unpackedNaN, compareNaN]
      exact iff_of_false nofun (rankNaN.mpr left).not_ge
    · rw [comparedNumbers left right, Option.any_some, Ordering.isLE_iff_ne_gt,
        compare_gt_iff_gt, not_lt]

end Floats

end SignalVector.Binary64
