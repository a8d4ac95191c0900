import Mathlib
import SignalVector.Decimal.Text
import SignalVector.Proofs.Binary64
import SignalVector.Proofs.Rounding

/-! Different binary64 numbers have different texts. The bits of a number can be told from its sign and
its exact size, and both can be read in the text; all that are no number have the same bits. -/
namespace SignalVector.Decimal

open Float.Model (Format)
open Float.Model.UnpackedFloat

section Fields

def Parts.Canonical : Parts → Prop
  | .finite _ size => size.Canonical
  | _ => True

theorem partsCanonical (bits : Nat) : (Parts.ofBits bits).Canonical := by
  have powers : Nat.pow 2 52 = 2 ^ 52 ∧ Nat.pow 2 11 = 2 ^ 11 := ⟨rfl, rfl⟩
  unfold Parts.ofBits
  simp only [powers]
  split
  · split <;> trivial
  · split
    · constructor <;> dsimp only <;> omega
    · constructor <;> dsimp only <;> omega

def Parts.bits : Parts → Nat
  | .notANumber => 0
  | .infinite negative => negative.toNat * 2 ^ 63 + 2047 * 2 ^ 52
  | .finite negative size =>
    negative.toNat * 2 ^ 63 +
      if size.mantissa < 2 ^ 52 then size.mantissa
      else (size.exponent + 1075).toNat * 2 ^ 52 + (size.mantissa - 2 ^ 52)

theorem signBit (n : Nat) : (n % 2 == 1).toNat = n % 2 := by
  rcases Nat.mod_two_eq_zero_or_one n with even | odd
  · rw [even]
    rfl
  · rw [odd]
    rfl

theorem partsBits {n : Nat} (small : n < 2 ^ 64) (number : Parts.ofBits n ≠ .notANumber) :
    (Parts.ofBits n).bits = n := by
  have powers : Nat.pow 2 52 = 2 ^ 52 ∧ Nat.pow 2 11 = 2 ^ 11 ∧ Nat.pow 2 63 = 2 ^ 63 :=
    ⟨rfl, rfl, rfl⟩
  have sign := signBit (n / 2 ^ 63)
  unfold Parts.ofBits at number ⊢
  simp only [powers] at number ⊢
  split at number
  · split at number
    · rename_i greatest none
      rw [if_pos greatest, if_pos none, Parts.bits, sign]
      omega
    · exact absurd rfl number
  · rename_i scale
    rw [if_neg scale]
    split
    · rw [Parts.bits, sign, if_pos (Nat.mod_lt _ (by decide))]
      dsimp only
      omega
    · rw [Parts.bits, sign, if_neg (Nat.le_add_right _ _).not_gt]
      dsimp only
      omega

theorem scaleOf (x : Float) : (@unpackExponent .binary64 (Binary64.bits x)).toNat =
    x.toBits.toNat / 2 ^ 52 % 2 ^ 11 := by
  rw [← Nat.shiftRight_eq_div_pow]
  rfl

theorem fractionOf (x : Float) : (@unpackMantissa .binary64 (Binary64.bits x)).toNat =
    x.toBits.toNat % 2 ^ 52 := rfl

theorem noNumber {x : Float} (none : Parts.ofFloat x = .notANumber) :
    Binary64.bits x = packedNaN .binary64 := by
  have unpacked : x.toModel.unpack = .notANumber := by
    unfold Parts.ofFloat Parts.ofBits at none
    dsimp only at none
    split at none
    · rename_i scale
      split at none
      · cases none
      · rename_i fraction
        have exponent : @unpackExponent .binary64 (Binary64.bits x) = -1#11 :=
          BitVec.eq_of_toNat_eq ((scaleOf x).trans scale)
        have mantissa : @unpackMantissa .binary64 (Binary64.bits x) ≠ 0#52 := fun zero =>
          fraction ((fractionOf x).symm.trans (congrArg BitVec.toNat zero))
        exact (if_pos exponent).trans (if_neg mantissa)
    · split at none <;> cases none
  rw [← Binary64.bitsOfUnpacked, unpacked]
  rfl

theorem ofFloatSame {x y : Float} (same : Parts.ofFloat x = Parts.ofFloat y) : x = y := by
  by_cases none : Parts.ofFloat x = .notANumber
  · exact Binary64.sameBits ((noNumber none).trans (noNumber (same.symm.trans none)).symm)
  · have left : (Parts.ofFloat x).bits = x.toBits.toNat := partsBits x.toBits.toNat_lt none
    have right : (Parts.ofFloat y).bits = y.toBits.toNat :=
      partsBits y.toBits.toNat_lt fun other => none (same.trans other)
    exact Float.toBits_inj.mp (UInt64.toNat_inj.mp (left.symm.trans (same ▸ right)))

end Fields

section Texts

inductive Magnitudes : List Char → Prop
  | infinite : Magnitudes ['i', 'n', 'f']
  | figures {size : List Char} (h : Figures size) : Magnitudes size

inductive Numeral : List Char → Prop
  | notANumber : Numeral ['N', 'a', 'N']
  | positive {size : List Char} (h : Magnitudes size) : Numeral size
  | negative {size : List Char} (h : Magnitudes size) : Numeral ('-' :: size)

def Parts.negative : Parts → Bool
  | .notANumber => false
  | .infinite negative => negative
  | .finite negative _ => negative

def Parts.unsigned : Parts → String
  | .notANumber => "NaN"
  | .infinite _ => "inf"
  | .finite _ size => shortest size

variable {p q : Parts}

theorem partsText (p : Parts) : p.text none = signed p.negative p.unsigned := by
  cases p <;> rfl

theorem figuresFirst {size : List Char} (h : Figures size) :
    ∃ c, size.head? = some c ∧ c.isDigit = true := by
  cases h with
  | whole some all =>
    obtain ⟨c, rest, rfl⟩ := List.exists_cons_of_ne_nil some
    exact ⟨c, rfl, all c List.mem_cons_self⟩
  | pointed whole some all =>
    obtain ⟨c, rest, rfl⟩ := List.exists_cons_of_ne_nil whole
    exact ⟨c, rfl, all c List.mem_cons_self⟩

theorem unsignedFirst (canonical : p.Canonical) : p.unsigned.toList.head? ≠ some '-' := by
  cases p with
  | notANumber => decide
  | infinite negative => exact (by decide : "inf".toList.head? ≠ some '-')
  | finite negative size =>
    obtain ⟨c, first, digit⟩ := figuresFirst (shortestFigures canonical)
    intro minus
    cases first.symm.trans minus
    exact absurd digit (by decide)

theorem signedLetters (negative : Bool) (text : String) :
    (signed negative text).toList = (if negative then ['-'] else []) ++ text.toList := by
  cases negative with
  | false => rfl
  | true => simp [signed]

theorem signedSame {sign sign' : Bool} {size size' : String} (plain : size.toList.head? ≠ some '-')
    (plain' : size'.toList.head? ≠ some '-') (same : signed sign size = signed sign' size') :
    sign = sign' ∧ size = size' := by
  replace same := congrArg String.toList same
  rw [signedLetters, signedLetters] at same
  cases sign <;> cases sign'
  · exact ⟨rfl, String.toList_inj.mp same⟩
  · exact absurd (congrArg List.head? same) plain
  · exact absurd (congrArg List.head? same).symm plain'
  · exact ⟨rfl, String.toList_inj.mp (List.tail_eq_of_cons_eq same)⟩

theorem lettersNotShown {size : Binary} (canonical : size.Canonical) :
    shortest size ≠ "inf" ∧ shortest size ≠ "NaN" := by
  obtain ⟨c, first, digit⟩ := figuresFirst (shortestFigures canonical)
  constructor <;> intro same <;> rw [same] at first <;> cases first <;>
    exact absurd digit (by decide)

theorem unsignedSame (canonical : p.Canonical) (canonical' : q.Canonical)
    (signs : p.negative = q.negative) (same : p.unsigned = q.unsigned) : p = q := by
  cases p with
  | notANumber =>
    cases q with
    | notANumber => rfl
    | infinite negative => exact absurd same (by decide : "NaN" ≠ "inf")
    | finite negative size => exact absurd same.symm (lettersNotShown canonical').2
  | infinite negative =>
    cases q with
    | notANumber => exact absurd same (by decide : "inf" ≠ "NaN")
    | infinite negative' => exact congrArg _ signs
    | finite negative' size => exact absurd same.symm (lettersNotShown canonical').1
  | finite negative size =>
    cases q with
    | notANumber => exact absurd same (lettersNotShown canonical).2
    | infinite negative' => exact absurd same (lettersNotShown canonical).1
    | finite negative' size' =>
      cases signs
      exact congrArg _ (shortestSame canonical canonical' same)

theorem partsSame (canonical : p.Canonical) (canonical' : q.Canonical)
    (same : p.text none = q.text none) : p = q := by
  rw [partsText, partsText] at same
  obtain ⟨signs, sizes⟩ := signedSame (unsignedFirst canonical) (unsignedFirst canonical') same
  exact unsignedSame canonical canonical' signs sizes

theorem partsNumeral (canonical : p.Canonical) : Numeral (p.text none).toList := by
  have sign {negative : Bool} {size : String} (h : Magnitudes size.toList) :
      Numeral (signed negative size).toList := by
    rw [signedLetters]
    cases negative with
    | false => exact .positive h
    | true => exact .negative h
  cases p with
  | notANumber => exact .notANumber
  | infinite negative => exact sign .infinite
  | finite negative size => exact sign (.figures (shortestFigures canonical))

theorem textNumeral (x : Float) : Numeral (text none x).toList := partsNumeral (partsCanonical _)

theorem textSame {x y : Float} (same : text none x = text none y) : x = y :=
  ofFloatSame (partsSame (partsCanonical _) (partsCanonical _) same)

end Texts

end SignalVector.Decimal
