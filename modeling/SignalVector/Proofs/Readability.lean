import SignalVector.Proofs.NormalForm
import SignalVector.Proofs.Numerals
import SignalVector.Scalar.Render

/-! Expressions are read back from their text. The first characters of a text tell which node it was
written for, and a bare minus leaves no doubt, since neither a number nor a negation is ever negated.
Of the numbers it is asked that their texts are numerals, and different for different numbers. -/
namespace SignalVector

open Decimal

variable {R : Type}

section Words

def wordly (c : Char) : Bool := c.isAlphanum || c == '_' || c == '.'

def figural (c : Char) : Bool := c == '-' || wordly c

def Follows (rest : List Char) : Prop := ∀ c ∈ rest.head?, c = ' ' ∨ c = ')' ∨ c = ','

structure Identifier (name : String) : Prop where
  first : ∃ c rest, name.toList = c :: rest ∧ (c.isAlpha = true ∨ c = '_')
  all : ∀ c ∈ name.toList, c.isAlphanum = true ∨ c = '_'
  infinite : name ≠ "inf"
  notANumber : name ≠ "NaN"

def leading (text : List Char) : List Char := text.takeWhile wordly

def behind (text : List Char) : List Char := text.dropWhile wordly

variable {word rest : List Char}

theorem Follows.stops (follows : Follows rest) : Stops wordly rest := by
  intro c first
  rcases follows c first with rfl | rfl | rfl <;> decide

theorem Follows.stopsSigned (follows : Follows rest) : Stops figural rest := by
  intro c first
  rcases follows c first with rfl | rfl | rfl <;> decide

theorem digitWordly {c : Char} (digit : c.isDigit = true) : wordly c = true := by
  simp [wordly, Char.isAlphanum, digit]

theorem figuresWordly {size : List Char} (h : Figures size) : ∀ c ∈ size, wordly c = true := by
  cases h with
  | whole some all => exact fun c member => digitWordly (all c member)
  | pointed whole some all =>
    rw [List.forall_mem_append] at all
    refine List.forall_mem_append.mpr ⟨fun c member => digitWordly (all.1 c member), ?_⟩
    exact List.forall_mem_cons.mpr ⟨rfl, fun c member => digitWordly (all.2 c member)⟩

theorem magnitudeWordly {size : List Char} (h : Magnitudes size) : ∀ c ∈ size, wordly c = true := by
  cases h with
  | infinite => exact List.all_eq_true.mp rfl
  | figures h => exact figuresWordly h

theorem identifierWordly {name : String} (h : Identifier name) :
    ∀ c ∈ name.toList, wordly c = true := by
  intro c member
  rcases h.all c member with letter | rfl
  · simp [wordly, letter]
  · rfl

def numeric (text : List Char) : Bool :=
  leading text == ['i', 'n', 'f'] || leading text == ['N', 'a', 'N'] ||
    (leading text).head?.any Char.isDigit

theorem leadingWord (wordy : ∀ c ∈ word, wordly c = true) : leading word = word :=
  List.takeWhile_eq_self_iff.mpr wordy

theorem numericWord (wordy : ∀ c ∈ word, wordly c = true) (stops : Stops wordly rest) :
    numeric (word ++ rest) = numeric word := by
  have first : leading (word ++ rest) = word := (wordRead wordy stops).1
  rw [numeric, numeric, first, leadingWord wordy]

theorem magnitudeNumeric {size : List Char} (h : Magnitudes size) : numeric size = true := by
  rw [numeric, leadingWord (magnitudeWordly h)]
  cases h with
  | infinite => rfl
  | figures h =>
    obtain ⟨c, first, digit⟩ := figuresFirst h
    simp [first, digit]

theorem identifierNumeric {name : String} (h : Identifier name) : numeric name.toList = false := by
  have infinite : name.toList ≠ ['i', 'n', 'f'] := fun same =>
    h.infinite (String.toList_inj.mp same)
  have notANumber : name.toList ≠ ['N', 'a', 'N'] := fun same =>
    h.notANumber (String.toList_inj.mp same)
  obtain ⟨c, letters, spelled, first⟩ := h.first
  have noDigit : c.isDigit = false := by
    rcases first with letter | rfl
    · grind [Char.isDigit, Char.isAlpha, Char.isUpper, Char.isLower]
    · rfl
  rw [numeric, leadingWord (identifierWordly h)]
  rw [spelled] at infinite notANumber ⊢
  simp only [Bool.or_eq_false_iff, beq_eq_false_iff_ne]
  exact ⟨⟨infinite, notANumber⟩, noDigit⟩

theorem wordFirst (rest : List Char) (some : word ≠ []) (wordy : ∀ c ∈ word, wordly c = true) :
    ∃ c, (word ++ rest).head? = .some c ∧ c ≠ '(' ∧ c ≠ '-' := by
  obtain ⟨c, word, rfl⟩ := List.exists_cons_of_ne_nil some
  have first := wordy c List.mem_cons_self
  refine ⟨c, rfl, ?_, ?_⟩
  · rintro rfl
    exact absurd first (by decide)
  · rintro rfl
    exact absurd first (by decide)

theorem magnitudeSome {size : List Char} (h : Magnitudes size) : size ≠ [] := by
  cases h with
  | infinite => exact List.cons_ne_nil _ _
  | figures h =>
    obtain ⟨c, first, -⟩ := figuresFirst h
    exact List.ne_nil_of_mem (List.mem_of_head? first)

theorem numeralFigural {word : List Char} (h : Numeral word) : ∀ c ∈ word, figural c = true := by
  have signless : ∀ c, wordly c = true → figural c = true := fun c wordy => by
    rw [figural, wordy, Bool.or_true]
  cases h with
  | notANumber => exact List.all_eq_true.mp rfl
  | positive h => exact fun c member => signless c (magnitudeWordly h c member)
  | negative h =>
    exact List.forall_mem_cons.mpr ⟨rfl, fun c member => signless c (magnitudeWordly h c member)⟩

end Words

namespace Expression

section Readable

variable [BEq R] [Zero R] [One R] {a b : Expression R}

structure Readable (e : Expression R) : Prop where
  normal : e.Normal
  identifiers : ∀ name ∈ e.names, Identifier name

theorem Readable.sum (h : (sum a b).Readable) : a.Readable ∧ b.Readable := by
  obtain ⟨-, first, second⟩ := normalSum.mp h.normal
  obtain ⟨left, right⟩ := List.forall_mem_append.mp h.identifiers
  exact ⟨⟨first, left⟩, second, right⟩

theorem Readable.product (h : (product a b).Readable) : a.Readable ∧ b.Readable := by
  obtain ⟨-, first, second⟩ := normalProduct.mp h.normal
  obtain ⟨left, right⟩ := List.forall_mem_append.mp h.identifiers
  exact ⟨⟨first, left⟩, second, right⟩

theorem Readable.negation (h : (negation a).Readable) : a.Readable :=
  ⟨(normalNegation.mp h.normal).2, h.identifiers⟩

theorem Readable.absolute (h : (absolute a).Readable) : a.Readable :=
  ⟨(normalAbsolute.mp h.normal).2, h.identifiers⟩

theorem Readable.greater (h : (greater a b).Readable) : a.Readable ∧ b.Readable := by
  obtain ⟨-, first, second⟩ := normalGreater.mp h.normal
  obtain ⟨left, right⟩ := List.forall_mem_append.mp h.identifiers
  exact ⟨⟨first, left⟩, second, right⟩

end Readable

section Kinds

inductive Kind where
  | number
  | name
  | pair
  | negation
  | absolute
  | greater
  deriving DecidableEq, Repr

def kind : Expression R → Kind
  | constant _ => .number
  | symbol _ => .name
  | sum _ _ => .pair
  | product _ _ => .pair
  | negation _ => .negation
  | absolute _ => .absolute
  | greater _ _ => .greater

/- Looks at the characters up to the end of the first word, and at the one behind it. -/
def readKind (text : List Char) : Kind :=
  if text.head? = some '(' then .pair
  else if text.head? = some '-' then if numeric text.tail then .number else .negation
  else if numeric text then .number
  else if (behind text).head? = some '(' then
    if leading text = ['a', 'b', 's'] then .absolute else .greater
  else .name

variable [Render R]

def letters (e : Expression R) : List Char := e.text.toList

section Spelled

variable {a b : Expression R} (rest : List Char)

theorem lettersSum : (sum a b).letters ++ rest =
    '(' :: (a.letters ++ ([' ', '+', ' '] ++ (b.letters ++ ')' :: rest))) := by
  simp [letters, text]

theorem lettersProduct : (product a b).letters ++ rest =
    '(' :: (a.letters ++ ([' ', '*', ' '] ++ (b.letters ++ ')' :: rest))) := by
  simp [letters, text]

theorem lettersNegation : (negation a).letters ++ rest = '-' :: (a.letters ++ rest) := by
  simp [letters, text]

theorem lettersAbsolute : (absolute a).letters ++ rest =
    ['a', 'b', 's'] ++ '(' :: (a.letters ++ ')' :: rest) := by
  simp [letters, text]

theorem lettersGreater : (greater a b).letters ++ rest =
    ['m', 'a', 'x'] ++ '(' :: (a.letters ++ ([',', ' '] ++ (b.letters ++ ')' :: rest))) := by
  simp [letters, text]

end Spelled

structure Legible (R : Type) [Render R] : Prop where
  numeral : ∀ c : R, Numeral (render none c).toList
  apart : ∀ c d : R, render none c = render none d → c = d

section Heads

variable {word rest : List Char}

theorem kindOfWord (some : word ≠ []) (wordy : ∀ c ∈ word, wordly c = true)
    (stops : Stops wordly rest) :
    readKind (word ++ rest) =
      if numeric word then .number
      else if rest.head? = .some '(' then
        if word = ['a', 'b', 's'] then .absolute else .greater
      else .name := by
  obtain ⟨c, first, noParenthesis, noMinus⟩ := wordFirst rest some wordy
  obtain ⟨before, after⟩ := wordRead wordy stops
  simp [readKind, leading, behind, first, noParenthesis, noMinus, before, after,
    numericWord wordy stops]

theorem kindOfNumeral (numeral : Numeral word) (stops : Stops wordly rest) :
    readKind (word ++ rest) = .number := by
  cases numeral with
  | notANumber =>
    rw [kindOfWord (List.cons_ne_nil _ _) (List.all_eq_true.mp rfl) stops]
    rfl
  | positive h =>
    rw [kindOfWord (magnitudeSome h) (magnitudeWordly h) stops, magnitudeNumeric h]
    rfl
  | @negative size h =>
    simp [readKind, numericWord (magnitudeWordly h) stops, magnitudeNumeric h]

end Heads

section Reading

variable {a b c d e f : Expression R} {rest rest' : List Char}

theorem notNumeric (identifiers : ∀ name ∈ e.names, Identifier name) (noNumber : ¬ e.IsNumber)
    (noNegation : ∀ a, e ≠ negation a) (follows : Follows rest) :
    numeric (e.letters ++ rest) = false := by
  cases e with
  | constant c => exact absurd ⟨c, rfl⟩ noNumber
  | symbol name =>
    have identifier := identifiers name List.mem_cons_self
    exact (numericWord (identifierWordly identifier) follows.stops).trans
      (identifierNumeric identifier)
  | sum a b => rw [lettersSum]; rfl
  | product a b => rw [lettersProduct]; rfl
  | negation a => exact absurd rfl (noNegation a)
  | absolute a =>
    rw [lettersAbsolute, numericWord (List.all_eq_true.mp rfl) (stopsAt rfl)]
    rfl
  | greater a b =>
    rw [lettersGreater, numericWord (List.all_eq_true.mp rfl) (stopsAt rfl)]
    rfl

variable [BEq R] [Zero R] [One R]

theorem kindRead (legible : Legible R) (readable : e.Readable) (follows : Follows rest) :
    readKind (e.letters ++ rest) = e.kind := by
  cases e with
  | constant c => exact kindOfNumeral (legible.numeral c) follows.stops
  | symbol name =>
    have identifier := readable.identifiers name List.mem_cons_self
    have noParenthesis : rest.head? ≠ some '(' := fun first => by
      rcases follows '(' first with h | h | h <;> cases h
    obtain ⟨c, spelled, first, -⟩ := identifier.first
    have nonempty : name.toList ≠ [] := first ▸ List.cons_ne_nil _ _
    change readKind (name.toList ++ rest) = .name
    rw [kindOfWord nonempty (identifierWordly identifier) follows.stops,
      identifierNumeric identifier]
    simp [noParenthesis]
  | sum a b => rw [lettersSum]; rfl
  | product a b => rw [lettersProduct]; rfl
  | negation a =>
    obtain ⟨⟨noNumber, noNegation⟩, -⟩ := normalNegation.mp readable.normal
    rw [lettersNegation]
    simp [readKind, notNumeric (e := a) readable.identifiers noNumber noNegation follows, kind]
  | absolute a =>
    rw [lettersAbsolute, kindOfWord (List.cons_ne_nil _ _) (List.all_eq_true.mp rfl) (stopsAt rfl)]
    rfl
  | greater a b =>
    rw [lettersGreater, kindOfWord (List.cons_ne_nil _ _) (List.all_eq_true.mp rfl) (stopsAt rfl)]
    rfl

/- Texts that begin with the texts of both are the same only where the two are. -/
def Once (e f : Expression R) : Prop :=
  ∀ s t, Follows s → Follows t → e.letters ++ s = f.letters ++ t → e = f ∧ s = t

theorem followsAt {c : Char} (closed : c = ' ' ∨ c = ')' ∨ c = ',') : Follows (c :: rest) := by
  intro d first
  cases first
  exact closed

omit [BEq R] [Zero R] [One R] in
theorem pairOnce {s t gap gap' : List Char} (left : Once a c) (right : Once b d)
    (same : a.letters ++ (gap ++ (b.letters ++ ')' :: s)) =
      c.letters ++ (gap' ++ (d.letters ++ ')' :: t)))
    (follows : ∀ rest, Follows (gap ++ rest) ∧ Follows (gap' ++ rest))
    (long : gap.length = gap'.length) : (a = c ∧ b = d) ∧ gap = gap' ∧ s = t := by
  obtain ⟨first, behind⟩ := left _ _ (follows _).1 (follows _).2 same
  obtain ⟨gaps, second⟩ := List.append_inj behind long
  obtain ⟨other, closed⟩ := right _ _ (followsAt (by decide)) (followsAt (by decide)) second
  exact ⟨⟨first, other⟩, gaps, List.tail_eq_of_cons_eq closed⟩

omit [BEq R] [Zero R] [One R] in
theorem infixOnce {s t : List Char} {sign sign' : Char} (left : Once a c) (right : Once b d)
    (same : '(' :: (a.letters ++ ([' ', sign, ' '] ++ (b.letters ++ ')' :: s))) =
      '(' :: (c.letters ++ ([' ', sign', ' '] ++ (d.letters ++ ')' :: t)))) :
    (a = c ∧ b = d) ∧ sign = sign' ∧ s = t := by
  obtain ⟨operands, gaps, rest⟩ := pairOnce left right (List.tail_eq_of_cons_eq same)
    (fun _ => ⟨followsAt (by decide), followsAt (by decide)⟩) rfl
  injection gaps with _ signs
  injection signs with signs
  exact ⟨operands, signs, rest⟩

theorem sameKind {s t : List Char} (legible : Legible R) (readable : e.Readable)
    (readable' : f.Readable) (follows : Follows s) (follows' : Follows t)
    (same : e.letters ++ s = f.letters ++ t) : e.kind = f.kind := by
  rw [← kindRead legible readable follows, same, kindRead legible readable' follows']

/- By induction on the first expression: both are of the kind that the text tells, and their parts
stand at the same places. A sum and a product differ in the sign between them. -/
theorem readsOnce (legible : Legible R) (readable : e.Readable) (readable' : f.Readable) :
    Once e f := by
  induction e generalizing f with
  | constant c =>
    intro s t follows follows' same
    have kinds := sameKind legible readable readable' follows follows' same
    cases f with
    | constant d =>
      obtain ⟨word, rest⟩ := wordsSame (numeralFigural (legible.numeral c))
        (numeralFigural (legible.numeral d)) follows.stopsSigned follows'.stopsSigned same
      exact ⟨congrArg constant (legible.apart c d (String.toList_inj.mp word)), rest⟩
    | _ => cases kinds
  | symbol name =>
    intro s t follows follows' same
    have kinds := sameKind legible readable readable' follows follows' same
    cases f with
    | symbol name' =>
      have identifier := readable.identifiers name List.mem_cons_self
      have identifier' := readable'.identifiers name' List.mem_cons_self
      obtain ⟨word, rest⟩ := wordsSame (identifierWordly identifier)
        (identifierWordly identifier') follows.stops follows'.stops same
      exact ⟨congrArg symbol (String.toList_inj.mp word), rest⟩
    | _ => cases kinds
  | sum a b left right =>
    intro s t follows follows' same
    have kinds := sameKind legible readable readable' follows follows' same
    rw [lettersSum] at same
    cases f with
    | sum c d =>
      rw [lettersSum] at same
      obtain ⟨⟨rfl, rfl⟩, -, rest⟩ := infixOnce (left readable.sum.1 readable'.sum.1)
        (right readable.sum.2 readable'.sum.2) same
      exact ⟨rfl, rest⟩
    | product c d =>
      rw [lettersProduct] at same
      obtain ⟨-, signs, -⟩ := infixOnce (left readable.sum.1 readable'.product.1)
        (right readable.sum.2 readable'.product.2) same
      exact absurd signs (by decide)
    | _ => cases kinds
  | product a b left right =>
    intro s t follows follows' same
    have kinds := sameKind legible readable readable' follows follows' same
    rw [lettersProduct] at same
    cases f with
    | sum c d =>
      rw [lettersSum] at same
      obtain ⟨-, signs, -⟩ := infixOnce (left readable.product.1 readable'.sum.1)
        (right readable.product.2 readable'.sum.2) same
      exact absurd signs (by decide)
    | product c d =>
      rw [lettersProduct] at same
      obtain ⟨⟨rfl, rfl⟩, -, rest⟩ := infixOnce (left readable.product.1 readable'.product.1)
        (right readable.product.2 readable'.product.2) same
      exact ⟨rfl, rest⟩
    | _ => cases kinds
  | negation a inside =>
    intro s t follows follows' same
    have kinds := sameKind legible readable readable' follows follows' same
    cases f with
    | negation c =>
      rw [lettersNegation, lettersNegation, List.cons_inj_right] at same
      obtain ⟨rfl, rest⟩ := inside readable.negation readable'.negation s t follows follows' same
      exact ⟨rfl, rest⟩
    | _ => cases kinds
  | absolute a inside =>
    intro s t follows follows' same
    have kinds := sameKind legible readable readable' follows follows' same
    cases f with
    | absolute c =>
      rw [lettersAbsolute, lettersAbsolute, List.append_cancel_left_eq, List.cons_inj_right] at same
      obtain ⟨rfl, rest⟩ := inside readable.absolute readable'.absolute _ _ (followsAt (by decide))
        (followsAt (by decide)) same
      exact ⟨rfl, List.tail_eq_of_cons_eq rest⟩
    | _ => cases kinds
  | greater a b left right =>
    intro s t follows follows' same
    have kinds := sameKind legible readable readable' follows follows' same
    cases f with
    | greater c d =>
      rw [lettersGreater, lettersGreater, List.append_cancel_left_eq, List.cons_inj_right] at same
      obtain ⟨⟨rfl, rfl⟩, -, rest⟩ := pairOnce (left readable.greater.1 readable'.greater.1)
        (right readable.greater.2 readable'.greater.2) same
        (fun _ => ⟨followsAt (by decide), followsAt (by decide)⟩) rfl
      exact ⟨rfl, rest⟩
    | _ => cases kinds

end Reading

end Kinds

section Whole

theorem legibleNumbers : Legible Float := ⟨textNumeral, fun _ _ => textSame⟩

theorem renderText [Render R] (e : Expression R) : render none e = e.text := by
  cases e <;> rfl

/- The same text is written for the same tree only. Its numbers are equal bit for bit, where all that
are no number count as one. -/
theorem builtReadOnce {e f : Expression Float} (built : Built e) (built' : Built f)
    (identifiers : ∀ name ∈ e.names ++ f.names, Identifier name)
    (same : render none e = render none f) : e = f := by
  obtain ⟨left, right⟩ := List.forall_mem_append.mp identifiers
  rw [renderText, renderText] at same
  have letters : e.letters ++ [] = f.letters ++ [] := congrArg (String.toList · ++ []) same
  have finished : Follows [] := fun c first => nomatch first
  exact (readsOnce legibleNumbers ⟨builtIff.mp built, left⟩ ⟨builtIff.mp built', right⟩ [] []
    finished finished letters).1

theorem builtReadOnceMinus :
    let e : Expression Float := larger (-(symbol "x_1" * 1)) (constant (-2) + 0)
    let f : Expression Float := larger (0 - symbol "x_1") (-constant 2)
    (∀ name ∈ e.names ++ f.names, Identifier name) ∧ render none e = "max(-x_1, -2)" ∧
      render none e = render none f ∧ e = f := by
  intro e f
  have identifier : Identifier "x_1" :=
    ⟨⟨'x', ['_', '1'], rfl, by decide⟩, by simp, by decide, by decide⟩
  have names : e.names ++ f.names = ["x_1", "x_1"] := rfl
  have identifiers : ∀ name ∈ e.names ++ f.names, Identifier name := by
    rw [names]
    simpa using identifier
  have built : Built e := .max (.neg (.mul (.symbol _) .one)) (.add (.constant _) .zero)
  have built' : Built f := .max (.sub .zero (.symbol _)) (.neg (.constant _))
  have same : render none e = render none f := rfl
  exact ⟨identifiers, rfl, same, builtReadOnce built built' identifiers same⟩

end Whole

end Expression

end SignalVector
