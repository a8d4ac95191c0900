import Mathlib
import SignalVector.Decimal.Digits

/-! Positional notation is read back. It is made of digits with at most one point between them, and
where as many places are written as the unit has, the text gives the digits and the unit. -/
namespace SignalVector.Decimal

section Words

def Stops (p : Char → Bool) (rest : List Char) : Prop := ∀ c ∈ rest.head?, p c = false

variable {p : Char → Bool} {word word' rest rest' : List Char}

theorem stopsAt {c : Char} (other : p c = false) : Stops p (c :: rest) := by
  intro d first
  cases first
  exact other

theorem wordRead (wordy : ∀ c ∈ word, p c = true) (stops : Stops p rest) :
    (word ++ rest).takeWhile p = word ∧ (word ++ rest).dropWhile p = rest := by
  rw [List.takeWhile_append_of_pos wordy, List.dropWhile_append_of_pos wordy]
  cases rest with
  | nil => simp
  | cons c rest => simp [stops c rfl]

theorem wordsSame (wordy : ∀ c ∈ word, p c = true) (wordy' : ∀ c ∈ word', p c = true)
    (stops : Stops p rest) (stops' : Stops p rest') (same : word ++ rest = word' ++ rest') :
    word = word' ∧ rest = rest' := by
  obtain ⟨left, right⟩ := wordRead wordy stops
  obtain ⟨left', right'⟩ := wordRead wordy' stops'
  rw [same] at left right
  exact ⟨left.symm.trans left', right.symm.trans right'⟩

end Words

inductive Figures : List Char → Prop
  | whole {digits : List Char} (some : digits ≠ []) (all : ∀ c ∈ digits, c.isDigit = true) :
      Figures digits
  | pointed {digits places : List Char} (whole : digits ≠ []) (some : places ≠ [])
      (all : ∀ c ∈ digits ++ places, c.isDigit = true) : Figures (digits ++ '.' :: places)

section Digits

variable {n n' width : Nat}

theorem digitsOf (n : Nat) : (toString n).toList = Nat.toDigits 10 n := by
  rw [Nat.toString_eq_ofList_toDigits, String.toList_ofList]

theorem digitsAll (n : Nat) : ∀ c ∈ (toString n).toList, c.isDigit = true := by
  intro c member
  rw [digitsOf] at member
  exact Nat.isDigit_of_mem_toDigits (by decide) (by decide) member

theorem digitsSome (n : Nat) : (toString n).toList ≠ [] := by
  rw [digitsOf]
  exact Nat.toDigits_ne_nil

theorem digitsRead (n : Nat) : Nat.ofDigitChars 10 (toString n).toList 0 = n := by
  rw [digitsOf, Nat.ofDigitChars_ten_toDigits]

theorem digitsCount (some : 0 < width) :
    (toString n).toList.length ≤ width ↔ n < Nat.pow 10 width := by
  rw [digitsOf]
  exact Nat.length_toDigits_le_iff (by decide) some

theorem paddedDigits (some : 0 < width) :
    (padded width n).toList =
      List.replicate (width - (toString n).toList.length) '0' ++ (toString n).toList := by
  rw [padded, if_neg some.ne', String.toList_append, zeros, String.toList_ofList, String.length_toList]

theorem paddedAll (some : 0 < width) : ∀ c ∈ (padded width n).toList, c.isDigit = true := by
  rw [paddedDigits some]
  refine List.forall_mem_append.mpr ⟨?_, digitsAll n⟩
  intro c member
  rw [List.eq_of_mem_replicate member]
  rfl

theorem paddedLength (some : 0 < width) (small : n < Nat.pow 10 width) :
    (padded width n).toList.length = width := by
  have short := (digitsCount some).mpr small
  rw [paddedDigits some, List.length_append, List.length_replicate]
  omega

theorem zerosRead (count : Nat) : Nat.ofDigitChars 10 (List.replicate count '0') 0 = 0 := by
  induction count with
  | zero => rfl
  | succ count ih => exact ih

theorem paddedRead (some : 0 < width) : Nat.ofDigitChars 10 (padded width n).toList 0 = n := by
  rw [paddedDigits some, Nat.ofDigitChars_append, zerosRead, digitsRead]

end Digits

section Positional

variable {n n' unit unit' : Nat}

theorem positionalWhole (n : Nat) : positional n 0 0 = toString n := rfl

theorem positionalPointed (n : Nat) (some : 0 < unit) :
    (positional n unit unit).toList = (toString (n / Nat.pow 10 unit)).toList ++
      '.' :: (padded unit (n % Nat.pow 10 unit)).toList := by
  simp [positional, some.ne', zeros]

theorem positionalFigures (n unit : Nat) : Figures (positional n unit unit).toList := by
  rcases unit.eq_zero_or_pos with rfl | some
  · exact .whole (digitsSome n) (digitsAll n)
  · rw [positionalPointed n some]
    refine .pointed (digitsSome _) ?_ (List.forall_mem_append.mpr ⟨digitsAll _, paddedAll some⟩)
    refine List.ne_nil_of_length_pos ?_
    rw [paddedLength some (Nat.mod_lt _ (Nat.pow_pos (by decide)))]
    exact some

theorem wholeNotPointed (some : 0 < unit') :
    (positional n 0 0).toList ≠ (positional n' unit' unit').toList := by
  intro same
  rw [positionalPointed n' some] at same
  have point : '.' ∈ (toString n).toList := same ▸ List.mem_append_right _ List.mem_cons_self
  exact absurd (digitsAll n _ point) (by decide)

theorem positionalSame (same : positional n unit unit = positional n' unit' unit') :
    n = n' ∧ unit = unit' := by
  replace same := congrArg String.toList same
  rcases unit.eq_zero_or_pos with rfl | some <;> rcases unit'.eq_zero_or_pos with rfl | some'
  · have read := congrArg (Nat.ofDigitChars 10 · 0) same
    simp only [positionalWhole, digitsRead] at read
    exact ⟨read, rfl⟩
  · exact absurd same (wholeNotPointed some')
  · exact absurd same.symm (wholeNotPointed some)
  · rw [positionalPointed n some, positionalPointed n' some'] at same
    obtain ⟨whole, places⟩ := wordsSame (p := Char.isDigit) (digitsAll _) (digitsAll _)
      (stopsAt rfl) (stopsAt rfl) same
    replace places := List.tail_eq_of_cons_eq places
    have lengths := congrArg List.length places
    rw [paddedLength some (Nat.mod_lt _ (Nat.pow_pos (by decide))),
      paddedLength some' (Nat.mod_lt _ (Nat.pow_pos (by decide)))] at lengths
    subst lengths
    have quotient := congrArg (Nat.ofDigitChars 10 · 0) whole
    have remainder := congrArg (Nat.ofDigitChars 10 · 0) places
    simp only [digitsRead, paddedRead some] at quotient remainder
    refine ⟨?_, rfl⟩
    rw [← Nat.div_add_mod n (Nat.pow 10 unit), quotient, remainder, Nat.div_add_mod]

end Positional

end SignalVector.Decimal
