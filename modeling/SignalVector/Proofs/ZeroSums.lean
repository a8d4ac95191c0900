import SignalVector.Proofs.Duals
import SignalVector.Proofs.Simplification

/-! Two ways to add up a list from zero: term by term, or the sum of all terms at once. Numbers with
a second zero tell them apart nowhere, because a partial sum from the first zero is never the second;
and so do dual numbers and expressions over such numbers. -/
namespace SignalVector

/- Numbers with a negative zero, which is neutral on the right, while zero itself is neutral only for
other numbers. Comparison takes the two for equal. -/
structure SignedZero {R : Type} [Zero R] [Add R] [BEq R] (negative : R) : Prop where
  left : ∀ x, x ≠ negative → 0 + x = x
  right : ∀ x, x ≠ negative → x + 0 = x
  neutral : ∀ x, x + negative = x
  closed : ∀ x y, x + y = negative → x = negative ∧ y = negative
  zero : ((0 : R) == 0) = true
  alike : (negative == 0) = true

section Sums

variable {T : Type} [Zero T] [Add T]

def addedInTurn (terms : List T) : T := terms.foldl (fun sum t => sum + (0 + t)) 0

def addedAtOnce (terms : List T) : T := 0 + terms.foldl (· + ·) 0

theorem projectSums {S : Type} [Zero S] [Add S] {p : T → S} (zero : p 0 = 0)
    (add : ∀ a b, p (a + b) = p a + p b) (terms : List T) :
    p (addedInTurn terms) = addedInTurn (terms.map p) ∧
      p (addedAtOnce terms) = addedAtOnce (terms.map p) := by
  constructor
  · rw [addedInTurn, addedInTurn, List.foldl_map, ← zero]
    refine (List.foldl_hom p fun sum t => ?_).symm
    rw [add, add]
  · rw [addedAtOnce, addedAtOnce, List.foldl_map, add, zero]
    refine congrArg (0 + ·) ?_
    rw [← zero]
    exact (List.foldl_hom p fun sum t => (add sum t).symm).symm

end Sums

namespace SignedZero

variable {R : Type} [Zero R]

def Proper (negative sum : R) : Prop := sum = negative → negative = 0

variable [Add R] [BEq R] {negative : R} (laws : SignedZero negative)

include laws

theorem absorbs {x : R} (proper : Proper negative x) : x + 0 = x ∧ 0 + x = x := by
  by_cases same : x = negative
  · have one := proper same
    subst same
    rw [one] at laws ⊢
    exact ⟨laws.neutral 0, laws.neutral 0⟩
  · exact ⟨laws.right x same, laws.left x same⟩

theorem addsProper {sum : R} (proper : Proper negative sum) (t : R) :
    sum + (0 + t) = sum + t ∧ Proper negative (sum + t) := by
  refine ⟨?_, fun same => proper (laws.closed sum t same).1⟩
  by_cases other : t = negative
  · rw [other, laws.neutral, laws.neutral, (laws.absorbs proper).1]
  · rw [laws.left t other]

theorem foldsProper {sum : R} (proper : Proper negative sum) (terms : List R) :
    terms.foldl (fun sum t => sum + (0 + t)) sum = terms.foldl (· + ·) sum ∧
      Proper negative (terms.foldl (· + ·) sum) := by
  induction terms generalizing sum with
  | nil => exact ⟨rfl, proper⟩
  | cons t terms ih =>
    obtain ⟨same, next⟩ := laws.addsProper proper t
    simp only [List.foldl_cons, same]
    exact ih next

theorem addedAlike (terms : List R) : addedInTurn terms = addedAtOnce terms := by
  obtain ⟨same, proper⟩ := laws.foldsProper (fun zero => zero.symm) terms
  rw [addedInTurn, addedAtOnce, same, (laws.absorbs proper).2]

end SignedZero

namespace Dual

variable {R : Type} [Zero R] [Add R] [BEq R] {negative : R} {n : Nat}

theorem addedAlike (laws : SignedZero negative) (terms : List (Dual R n)) :
    addedInTurn terms = addedAtOnce terms := by
  have through : ∀ p : Dual R n → R, p 0 = 0 → (∀ a b, p (a + b) = p a + p b) →
      p (addedInTurn terms) = p (addedAtOnce terms) := by
    intro p zero add
    obtain ⟨turn, once⟩ := projectSums zero add terms
    rw [turn, once, laws.addedAlike]
  refine ext (through value valueZero fun a b => valueAdd a b) fun j h => ?_
  exact through (·.derivatives[j]) (slotZero h) fun a b => slotAdd a b h

end Dual

namespace Expression

variable {R : Type} [Zero R] [Add R] [BEq R] {negative : R}

theorem zeroAdd (laws : SignedZero negative) {e : Expression R} (other : e.asConstant = none) :
    0 + e = e := by
  have known : (constant (0 : R)).asConstant = some 0 := rfl
  change add (constant 0) e = e
  simp [add, isZero, known, other, laws.zero]

theorem addZero {e : Expression R} (other : e.asConstant = none) {c : R} (zero : (c == 0) = true) :
    e + constant c = e := by
  have known : (constant c).asConstant = some c := rfl
  change add e (constant c) = e
  simp [add, isZero, known, other, zero]

theorem sumOther {e f : Expression R} (other : e.asConstant = none ∨ f.asConstant = none) :
    (e + f).asConstant = none := by
  change (add e f).asConstant = none
  unfold add
  split
  · rename_i left right
    simp [left, right] at other
  · split
    · rename_i zero
      cases left : e.asConstant with
      | none => simp [isZero, left] at zero
      | some c => exact other.resolve_left (by simp [left])
    · split
      · rename_i zero
        cases right : f.asConstant with
        | none => simp [isZero, right] at zero
        | some c => exact other.resolve_right (by simp [right])
      · rfl

theorem sumClosed (laws : SignedZero negative) {e f : Expression R}
    (same : e + f = constant negative) : e = constant negative ∧ f = constant negative := by
  have known : (e + f).asConstant = some negative := congrArg asConstant same
  cases left : e.asConstant with
  | none =>
    rw [sumOther (.inl left)] at known
    contradiction
  | some a =>
    cases right : f.asConstant with
    | none =>
      rw [sumOther (.inr right)] at known
      contradiction
    | some b =>
      cases constantOf left
      cases constantOf right
      obtain ⟨first, second⟩ := laws.closed a b (constant.inj same)
      exact ⟨congrArg constant first, congrArg constant second⟩

/- A constant is added as a number, and next to any other expression both zeros are dropped. So the
negative zero of the numbers is one of the expressions. -/
theorem signedZero (laws : SignedZero negative) : SignedZero (constant negative) where
  left e other := by
    cases known : e.asConstant with
    | none => exact zeroAdd laws known
    | some c =>
      cases constantOf known
      exact congrArg constant (laws.left c fun same => other (congrArg constant same))
  right e other := by
    cases known : e.asConstant with
    | none => exact addZero known laws.zero
    | some c =>
      cases constantOf known
      exact congrArg constant (laws.right c fun same => other (congrArg constant same))
  neutral e := by
    cases known : e.asConstant with
    | none => exact addZero known laws.alike
    | some c =>
      cases constantOf known
      exact congrArg constant (laws.neutral c)
  closed _ _ := sumClosed laws
  zero := laws.zero
  alike := laws.alike

end Expression

end SignalVector
