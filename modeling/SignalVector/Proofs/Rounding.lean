import Mathlib
import SignalVector.Decimal.Shortest
import SignalVector.Proofs.Figures

/-! The shortest decimal of a number rounds to that number and to no other. The decimals that round
to a number lie between the two places halfway to its neighbours, and where two numbers share such a
place, one mantissa is odd and leaves it out. The search reaches a grid fine enough to have one. -/
namespace SignalVector.Decimal

/- The mantissas and exponents that binary64 numbers have: only at the least exponent may the
mantissa be short. -/
structure Binary.Canonical (b : Binary) : Prop where
  small : b.mantissa < 2 ^ 53
  bound : -1074 ≤ b.exponent
  least : b.mantissa < 2 ^ 52 → b.exponent = -1074

def Binary.quarter (b : Binary) : ℚ := 2 ^ (b.exponent - 2)

/- The decimals that are nearer to the number than to its neighbours, or as near and rounded to it
as the even one. -/
structure Binary.Rounds (b : Binary) (v : ℚ) : Prop where
  low : b.below * b.quarter ≤ v
  high : v ≤ b.above * b.quarter
  odd : b.mantissa % 2 ≠ 0 → b.below * b.quarter < v ∧ v < b.above * b.quarter

section Scale

theorem powSplit {a : ℚ} (nonzero : a ≠ 0) (z : ℤ) : a ^ z.toNat = a ^ z * a ^ (-z).toNat := by
  rw [← zpow_natCast, ← zpow_natCast, ← zpow_add₀ nonzero]
  congr 1
  omega

theorem quarterPositive (b : Binary) : 0 < b.quarter := zpow_pos (by norm_num) _

theorem gridScale (b : Binary) (place : ℤ) : ∃ unit : ℚ, 0 < unit ∧
    ((Grid.at b place).numerator : ℚ) = b.quarter * unit ∧
      ((Grid.at b place).denominator : ℚ) = 10 ^ place * unit := by
  refine ⟨2 ^ (2 - b.exponent).toNat * 10 ^ (-place).toNat, by positivity, ?_, ?_⟩
  · have split := powSplit (a := 2) (by norm_num) (b.exponent - 2)
    rw [neg_sub] at split
    have cast : ((Grid.at b place).numerator : ℚ) =
        2 ^ (b.exponent - 2).toNat * 10 ^ (-place).toNat := by
      exact_mod_cast rfl
    rw [cast, split, Binary.quarter, mul_assoc]
  · have split := powSplit (a := 10) (by norm_num) place
    have cast : ((Grid.at b place).denominator : ℚ) =
        2 ^ (2 - b.exponent).toNat * 10 ^ place.toNat := by
      exact_mod_cast rfl
    rw [cast, split]
    ring

variable {b : Binary} {place : ℤ} {n count : ℕ}

theorem gridLe : n * (Grid.at b place).numerator ≤ count * (Grid.at b place).denominator ↔
    n * b.quarter ≤ count * (10 : ℚ) ^ place := by
  obtain ⟨unit, positive, numerator, denominator⟩ := gridScale b place
  rw [← Nat.cast_le (α := ℚ), Nat.cast_mul, Nat.cast_mul, numerator, denominator, ← mul_assoc,
    ← mul_assoc, mul_le_mul_iff_of_pos_right positive]

theorem gridGe : count * (Grid.at b place).denominator ≤ n * (Grid.at b place).numerator ↔
    count * (10 : ℚ) ^ place ≤ n * b.quarter := by
  obtain ⟨unit, positive, numerator, denominator⟩ := gridScale b place
  rw [← Nat.cast_le (α := ℚ), Nat.cast_mul, Nat.cast_mul, numerator, denominator, ← mul_assoc,
    ← mul_assoc, mul_le_mul_iff_of_pos_right positive]

theorem readsRounds (reads : (Grid.at b place).reads b count = true) :
    b.Rounds (count * 10 ^ place) := by
  unfold Grid.reads at reads
  dsimp only at reads
  split at reads
  · rename_i even
    simp only [Bool.and_eq_true, decide_eq_true_eq] at reads
    exact ⟨gridLe.mp reads.1, gridGe.mp reads.2, fun odd => absurd even odd⟩
  · simp only [Bool.and_eq_true, decide_eq_true_eq] at reads
    have low := lt_of_not_ge (mt gridGe.mpr reads.1.not_ge)
    have high := lt_of_not_ge (mt gridLe.mpr reads.2.not_ge)
    exact ⟨low.le, high.le, fun _ => ⟨low, high⟩⟩

end Scale

section Apart

variable {b b' : Binary} {v : ℚ}

def Binary.Before (b b' : Binary) : Prop :=
  b.exponent < b'.exponent ∨ b.exponent = b'.exponent ∧ b.mantissa < b'.mantissa

theorem belowLeast (b : Binary) : 4 * b.mantissa - 2 ≤ b.below := by
  unfold Binary.below
  split <;> omega

theorem belowFull (full : 2 ^ 52 ≤ b.mantissa) : 4 * 2 ^ 52 - 1 ≤ b.below := by
  have power : Nat.pow 2 52 = 2 ^ 52 := rfl
  unfold Binary.below
  split <;> omega

/- In quarters of the smaller unit. The ends meet only between an odd mantissa and the next, also
where the next is a power of two. -/
theorem endsMeet (canonical : b.Canonical) (canonical' : b'.Canonical) {rise : ℕ}
    (higher : b'.exponent = b.exponent + rise)
    (before : 0 < rise ∨ rise = 0 ∧ b.mantissa < b'.mantissa) :
    b.above < b'.below * 2 ^ rise ∨
      b.above = b'.below * 2 ^ rise ∧ (b.mantissa % 2 ≠ 0 ∨ b'.mantissa % 2 ≠ 0) := by
  have small := canonical.small
  rcases before with positive | ⟨rfl, less⟩
  · have full : 2 ^ 52 ≤ b'.mantissa := by
      by_contra short
      have least := canonical'.least (by omega)
      have bound := canonical.bound
      omega
    have far := belowFull full
    have double : b'.below * 2 ≤ b'.below * 2 ^ rise :=
      Nat.mul_le_mul_left _ (Nat.le_self_pow positive.ne' 2)
    unfold Binary.above
    omega
  · have far := belowLeast b'
    unfold Binary.above
    omega

theorem roundsOrdered (canonical : b.Canonical) (canonical' : b'.Canonical) (before : b.Before b')
    (rounds : b.Rounds v) : ¬ b'.Rounds v := by
  intro rounds'
  obtain ⟨rise, higher⟩ : ∃ rise : ℕ, b'.exponent = b.exponent + rise :=
    ⟨(b'.exponent - b.exponent).toNat, by unfold Binary.Before at before; omega⟩
  have unit : b'.quarter = 2 ^ rise * b.quarter := by
    rw [Binary.quarter, Binary.quarter, ← zpow_natCast, ← zpow_add₀ (by norm_num), higher]
    congr 1
    omega
  have scaled : (b'.below : ℚ) * b'.quarter = ↑(b'.below * 2 ^ rise) * b.quarter := by
    rw [unit]
    push_cast
    ring
  have order : 0 < rise ∨ rise = 0 ∧ b.mantissa < b'.mantissa := by
    unfold Binary.Before at before
    omega
  rcases endsMeet canonical canonical' higher order with less | ⟨same, odd | odd⟩
  · have gap : (b.above : ℚ) * b.quarter < b'.below * b'.quarter := by
      rw [scaled]
      exact mul_lt_mul_of_pos_right (Nat.cast_lt.mpr less) (quarterPositive b)
    exact absurd (rounds'.low.trans rounds.high) gap.not_ge
  · have high := (rounds.odd odd).2
    rw [same, ← scaled] at high
    exact absurd rounds'.low high.not_ge
  · have low := (rounds'.odd odd).1
    rw [scaled, ← same] at low
    exact absurd rounds.high low.not_ge

theorem roundsApart (canonical : b.Canonical) (canonical' : b'.Canonical) (rounds : b.Rounds v)
    (rounds' : b'.Rounds v) : b = b' := by
  by_contra differ
  have order : b.Before b' ∨ b'.Before b := by
    have either : b.mantissa ≠ b'.mantissa ∨ b.exponent ≠ b'.exponent := by
      by_contra same
      push Not at same
      exact differ (by cases b; cases b'; simp_all)
    unfold Binary.Before
    omega
  rcases order with before | before
  · exact roundsOrdered canonical canonical' before rounds rounds'
  · exact roundsOrdered canonical' canonical before rounds' rounds

end Apart

section Search

variable {b : Binary} {place : ℤ}

theorem readsDown {g : Grid} (some : 0 < b.mantissa) (positive : 0 < g.denominator)
    (fine : g.denominator ≤ g.numerator) :
    g.reads b (4 * b.mantissa * g.numerator / g.denominator) = true := by
  have exact := Nat.div_add_mod (4 * b.mantissa * g.numerator) g.denominator
  have rest := Nat.mod_lt (4 * b.mantissa * g.numerator) positive
  generalize 4 * b.mantissa * g.numerator / g.denominator = down at exact
  generalize 4 * b.mantissa * g.numerator % g.denominator = left at exact rest
  rw [Nat.mul_comm g.denominator] at exact
  have low : b.below * g.numerator < down * g.denominator := by
    have below : b.below + 1 ≤ 4 * b.mantissa := by
      unfold Binary.below
      split <;> omega
    have scaled := Nat.mul_le_mul_right g.numerator below
    rw [Nat.add_mul, Nat.one_mul] at scaled
    omega
  have high : down * g.denominator < b.above * g.numerator := by
    have numerator : 0 < g.numerator := positive.trans_le fine
    have above : b.above = 4 * b.mantissa + 2 := rfl
    rw [above, Nat.add_mul]
    omega
  unfold Grid.reads
  dsimp only
  split <;> simp [low, high, low.le, high.le]

theorem nearestReads {g : Grid} {count : ℕ} (found : g.nearest? b = some count) :
    g.reads b count = true := by
  unfold Grid.nearest? at found
  dsimp only at found
  split at found
  · rename_i down up
    cases found
    split
    · exact down
    · exact up
  · rename_i down _
    cases found
    exact down
  · rename_i _ up
    cases found
    exact up
  · cases found

theorem nearestFound {g : Grid} (some : 0 < b.mantissa) (positive : 0 < g.denominator)
    (fine : g.denominator ≤ g.numerator) : (g.nearest? b).isSome = true := by
  have down := readsDown some positive fine
  unfold Grid.nearest?
  dsimp only
  rw [down]
  split <;> simp_all

theorem gridPositive (b : Binary) (place : ℤ) : 0 < (Grid.at b place).denominator :=
  Nat.mul_pos (Nat.pow_pos (by decide)) (Nat.pow_pos (by decide))

theorem gridFine (fine : (10 : ℚ) ^ place ≤ b.quarter) :
    (Grid.at b place).denominator ≤ (Grid.at b place).numerator := by
  have one : 1 * (Grid.at b place).denominator ≤ 1 * (Grid.at b place).numerator :=
    gridGe.mpr (by simpa using fine)
  simpa using one

end Search

section Leading

variable {b : Binary}

theorem digitsLeast {n : ℕ} (positive : 0 < n) : 10 ^ (toString n).toList.length ≤ 10 * n := by
  have some : 0 < (toString n).toList.length := List.length_pos_iff.mpr (digitsSome n)
  obtain ⟨width, long⟩ := Nat.exists_eq_succ_of_ne_zero some.ne'
  rw [long, Nat.pow_succ, Nat.mul_comm]
  rcases width.eq_zero_or_pos with rfl | more
  · omega
  · have least := (digitsCount (n := n) more).not.mp (by omega)
    exact Nat.mul_le_mul_left 10 (not_lt.mp least)

theorem digitsMost (n : ℕ) : n < 10 ^ (toString n).toList.length :=
  (digitsCount (List.length_pos_iff.mpr (digitsSome n))).mp le_rfl

theorem numeratorDenominator (b : Binary) :
    (b.numerator : ℚ) = b.mantissa * 2 ^ b.exponent * b.denominator := by
  have split := powSplit (a := 2) (by norm_num) b.exponent
  have cast : (b.numerator : ℚ) = b.mantissa * 2 ^ b.exponent.toNat := by exact_mod_cast rfl
  have cast' : (b.denominator : ℚ) = 2 ^ (-b.exponent).toNat := by exact_mod_cast rfl
  rw [cast, cast', split, mul_assoc]

theorem denominatorPositive (b : Binary) : 0 < b.denominator := Nat.pow_pos (by decide)

theorem numeratorPositive (some : 0 < b.mantissa) : 0 < b.numerator :=
  Nat.mul_pos some (Nat.pow_pos (by decide))

theorem leadingClose (some : 0 < b.mantissa) :
    (10 : ℚ) ^ b.leadingPlace ≤ 100 * (b.mantissa * 2 ^ b.exponent) := by
  have denominator : (0 : ℚ) < b.denominator := Nat.cast_pos.mpr (denominatorPositive b)
  have numerator := numeratorPositive some
  rw [← mul_le_mul_iff_of_pos_right denominator, mul_assoc, ← numeratorDenominator]
  unfold Binary.leadingPlace
  simp only [← String.length_toList]
  split
  · rename_i large
    have least := digitsLeast (Nat.div_pos large (denominatorPositive b))
    generalize (toString (b.numerator / b.denominator)).toList.length = count at least ⊢
    have whole : 10 ^ count * b.denominator ≤ 100 * b.numerator := calc
      10 ^ count * b.denominator ≤ 10 * (b.numerator / b.denominator) * b.denominator :=
        Nat.mul_le_mul_right _ least
      _ = 10 * (b.numerator / b.denominator * b.denominator) := Nat.mul_assoc _ _ _
      _ ≤ 10 * b.numerator := Nat.mul_le_mul_left _ (Nat.div_mul_le_self _ _)
      _ ≤ 100 * b.numerator := Nat.mul_le_mul_right _ (by decide)
    rw [zpow_natCast]
    exact_mod_cast whole
  · have most := digitsMost (b.denominator / b.numerator)
    generalize (toString (b.denominator / b.numerator)).toList.length = count at most ⊢
    have whole : b.denominator ≤ 10 ^ count * b.numerator := calc
      b.denominator ≤ (b.denominator / b.numerator + 1) * b.numerator :=
        Nat.mul_comm _ b.numerator ▸ (Nat.lt_mul_div_succ _ numerator).le
      _ ≤ 10 ^ count * b.numerator := Nat.mul_le_mul_right _ most
    have cast : (b.denominator : ℚ) ≤ 10 ^ count * b.numerator := by exact_mod_cast whole
    rw [zpow_sub₀ (by norm_num), zpow_natCast, div_mul_eq_mul_div, div_le_iff₀ (by positivity)]
    linarith

theorem lastFine (canonical : b.Canonical) (some : 0 < b.mantissa) :
    (10 : ℚ) ^ (b.leadingPlace - 19) ≤ b.quarter := by
  have mantissa : (b.mantissa : ℚ) ≤ 2 ^ 53 := by exact_mod_cast canonical.small.le
  have unit : (2 : ℚ) ^ b.exponent = 4 * b.quarter := by
    rw [Binary.quarter, zpow_sub₀ (by norm_num)]
    norm_num
    ring
  have size : b.mantissa * (2 : ℚ) ^ b.exponent ≤ 2 ^ 53 * (4 * b.quarter) := by
    rw [unit]
    exact mul_le_mul_of_nonneg_right mantissa (by linarith [quarterPositive b])
  have close := leadingClose some
  rw [zpow_sub₀ (by norm_num), div_le_iff₀ (by positivity)]
  linarith [quarterPositive b]

/- The search ends with a decimal that rounds to the number, so nothing is written instead of one. -/
theorem shortestRounds (canonical : b.Canonical) (some : 0 < b.mantissa) :
    b.Rounds (b.shortest.1 * 10 ^ b.shortest.2) := by
  unfold Binary.shortest
  dsimp only
  split
  · rename_i found search
    obtain ⟨g, member, reads⟩ := List.exists_of_findSome?_eq_some search
    obtain ⟨k, -, rfl⟩ := List.mem_map.mp member
    obtain ⟨count, nearest, rfl⟩ := Option.map_eq_some_iff.mp reads
    exact readsRounds (nearestReads nearest)
  · rename_i search
    have last := List.findSome?_eq_none_iff.mp search (Grid.at b (b.leadingPlace - 19))
      (List.mem_map.mpr ⟨19, by decide, rfl⟩)
    have found := nearestFound some (gridPositive b _) (gridFine (lastFine canonical some))
    rw [Option.map_eq_none_iff.mp last] at found
    cases found

end Leading

section Shown

variable {b b' : Binary}

theorem zeroRounds (zero : b.mantissa = 0) : b.Rounds 0 := by
  have positive := quarterPositive b
  constructor
  · simp [Binary.below, zero]
  · rw [Binary.above, zero]
    positivity
  · rw [zero]
    intro odd
    exact absurd rfl odd

theorem shortestShown (canonical : b.Canonical) : ∃ n unit : ℕ,
    shortest b = positional n unit unit ∧ b.Rounds (n / 10 ^ unit) := by
  by_cases zero : b.mantissa = 0
  · exact ⟨0, 0, if_pos zero, by simpa using zeroRounds zero⟩
  · refine ⟨b.shortest.1 * Nat.pow 10 b.shortest.2.toNat, (-b.shortest.2).toNat, if_neg zero, ?_⟩
    have rounds := shortestRounds canonical (Nat.pos_of_ne_zero zero)
    have split := powSplit (a := (10 : ℚ)) (by norm_num) b.shortest.2
    have cast : ((b.shortest.1 * Nat.pow 10 b.shortest.2.toNat : ℕ) : ℚ) =
        b.shortest.1 * 10 ^ b.shortest.2.toNat := by exact_mod_cast rfl
    rwa [cast, split, ← mul_assoc, mul_div_cancel_right₀ _ (by positivity)]

theorem shortestFigures (canonical : b.Canonical) : Figures (shortest b).toList := by
  obtain ⟨n, unit, shown, -⟩ := shortestShown canonical
  rw [shown]
  exact positionalFigures n unit

theorem shortestSame (canonical : b.Canonical) (canonical' : b'.Canonical)
    (same : shortest b = shortest b') : b = b' := by
  obtain ⟨n, unit, shown, rounds⟩ := shortestShown canonical
  obtain ⟨n', unit', shown', rounds'⟩ := shortestShown canonical'
  rw [shown, shown'] at same
  obtain ⟨rfl, rfl⟩ := positionalSame same
  exact roundsApart canonical canonical' rounds rounds'

end Shown

end SignalVector.Decimal
