import Mathlib.Algebra.BigOperators.Group.List.Basic
import Mathlib.Tactic.Ring
import SignalVector.Proofs.Chains
import SignalVector.Proofs.Duals
import SignalVector.Proofs.NormalForm

/-! Numbers read in a commutative ring: as they are, as dual numbers, which are a ring themselves, or
as expressions in an environment. What the terms of a scaled addition contribute to an element is
then a sum of products, whatever the order of the additions and wherever they start. -/
namespace SignalVector

variable {R T A : Type} {n : Nat}

namespace Dual

variable [CommRing R]

theorem valueOne : (1 : Dual R n).value = 1 := rfl

theorem slotOne {j : Nat} (h : j < n) : (1 : Dual R n).derivatives[j] = 0 := slotConstant 1 h

/- Products of derivatives are left out. -/
instance : CommRing (Dual R n) where
  add_assoc a b c := ext (by simp [add_assoc]) fun j h => by simp [add_assoc]
  zero_add a := ext (by simp) fun j h => by simp
  add_zero a := ext (by simp) fun j h => by simp
  add_comm a b := ext (by simp [add_comm]) fun j h => by simp [add_comm]
  neg_add_cancel a := ext (by simp) fun j h => by simp
  mul_assoc a b c := ext (by simp [mul_assoc]) fun j h => by simp; ring
  one_mul a := ext (by simp [valueOne]) fun j h => by simp [valueOne, slotOne]
  mul_one a := ext (by simp [valueOne]) fun j h => by simp [valueOne, slotOne]
  zero_mul a := ext (by simp) fun j h => by simp
  mul_zero a := ext (by simp) fun j h => by simp
  left_distrib a b c := ext (by simp [mul_add]) fun j h => by simp; ring
  right_distrib a b c := ext (by simp [add_mul]) fun j h => by simp; ring
  mul_comm a b := ext (by simp [mul_comm]) fun j h => by simp; ring
  nsmul := nsmulRec
  zsmul := zsmulRec

end Dual

namespace Expression

def Bound (env : String → Option R) (e : Expression R) : Prop :=
  ∀ name ∈ e.names, ∃ x, env name = some x

variable [Add R] [Mul R] [Neg R] [Magnitude R] {env : String → Option R} {e : Expression R}

theorem hasValue (bound : e.Bound env) : ∃ x, e.evaluate env = some x := by
  induction e with
  | constant c => exact ⟨c, rfl⟩
  | symbol name => exact bound name (List.mem_singleton_self name)
  | sum a b left right =>
    obtain ⟨x, first⟩ := left fun name here => bound name (List.mem_append_left _ here)
    obtain ⟨y, second⟩ := right fun name here => bound name (List.mem_append_right _ here)
    exact ⟨x + y, by simp [evaluate, first, second]⟩
  | product a b left right =>
    obtain ⟨x, first⟩ := left fun name here => bound name (List.mem_append_left _ here)
    obtain ⟨y, second⟩ := right fun name here => bound name (List.mem_append_right _ here)
    exact ⟨x * y, by simp [evaluate, first, second]⟩
  | negation a inside =>
    obtain ⟨x, below⟩ := inside bound
    exact ⟨-x, by simp [evaluate, below]⟩
  | absolute a inside =>
    obtain ⟨x, below⟩ := inside bound
    exact ⟨magnitude x, by simp [evaluate, below]⟩
  | greater a b left right =>
    obtain ⟨x, first⟩ := left fun name here => bound name (List.mem_append_left _ here)
    obtain ⟨y, second⟩ := right fun name here => bound name (List.mem_append_right _ here)
    exact ⟨larger x y, by simp [evaluate, first, second]⟩

end Expression

section Totals

variable [CommRing A] {read : T → Option A}

def Valued (read : T → Option A) (x : T) : Prop := ∃ a, read x = some a

def worth (read : T → Option A) (x : T) : A := (read x).getD 0

theorem Valued.same {x : T} (valued : Valued read x) : read x = some (worth read x) := by
  obtain ⟨a, found⟩ := valued
  rw [worth, found]
  rfl

variable [Zero T]

def total (read : T → Option A) (terms : List (T × Cells T)) (i : Nat) : A :=
  (terms.map fun t => worth read (t.2.item i) * worth read t.1).sum

theorem totalAppend (terms terms' : List (T × Cells T)) (i : Nat) :
    total read (terms ++ terms') i = total read terms i + total read terms' i := by
  rw [total, List.map_append, List.sum_append]
  rfl

theorem totalPerm {terms terms' : List (T × Cells T)} (same : terms.Perm terms') (i : Nat) :
    total read terms i = total read terms' i :=
  (same.map _).sum_eq

def negated [Neg T] (terms : List (T × Cells T)) : List (T × Cells T) :=
  terms.map fun t => (-t.1, t.2)

def totalChain [One T] [Neg T] (read : T → Option A) (links : List (Link T)) (i : Nat) : A :=
  (links.map fun link => total read link.terms i).sum

end Totals

section Readings

variable [Zero T] [One T] [Add T] [Mul T] [Neg T] [CommRing A]

structure Reading (read : T → Option A) : Prop where
  zero : read 0 = some 0
  one : read 1 = some 1
  neg : ∀ {x a}, read x = some a → read (-x) = some (-a)
  add : ∀ {x y a b}, read x = some a → read y = some b → read (x + y) = some (a + b)
  mul : ∀ {x y a b}, read x = some a → read y = some b → read (x * y) = some (a * b)

theorem ringReading : Reading (some : A → Option A) where
  zero := rfl
  one := rfl
  neg same := by rw [Option.some.inj same]
  add left right := by rw [Option.some.inj left, Option.some.inj right]
  mul left right := by rw [Option.some.inj left, Option.some.inj right]

theorem Expression.reading [Magnitude A] [BEq A] [LawfulBEq A] (env : String → Option A) :
    Reading (evaluate env) where
  zero := rfl
  one := rfl
  neg := evaluateNeg
  add := evaluateAdd
  mul := evaluateMul

variable {read : T → Option A} {terms : List (T × Cells T)} {i : Nat}

namespace Reading

variable (laws : Reading read)

include laws

theorem totalNegated (valued : ∀ t ∈ terms, Valued read t.1) :
    total read (negated terms) i = -total read terms i := by
  induction terms with
  | nil => exact neg_zero.symm
  | cons t terms ih =>
    obtain ⟨here, later⟩ := List.forall_mem_cons.mp valued
    have taken : worth read (-t.1) = -worth read t.1 := by
      rw [worth, laws.neg here.same]
      rfl
    have rest := ih later
    simp only [total, negated, List.map_cons, List.sum_cons] at rest ⊢
    rw [rest, taken]
    ring

theorem sum {x : T} {a : A} (start : read x = some a)
    (valued : ∀ t ∈ terms, Valued read t.1 ∧ Valued read (t.2.item i)) :
    read (x + sumOfTerms terms i) = some (a + total read terms i) := by
  refine laws.add start ?_
  have onward : ∀ (y : T) (b : A), read y = some b →
      read (terms.foldl (fun sum t => sum + t.2.item i * t.1) y) = some (b + total read terms i) := by
    induction terms with
    | nil =>
      intro y b known
      exact known.trans (congrArg some (add_zero b).symm)
    | cons t terms ih =>
      intro y b known
      obtain ⟨⟨scale, item⟩, later⟩ := List.forall_mem_cons.mp valued
      rw [List.foldl_cons, ih later _ _ (laws.add known (laws.mul item.same scale.same)),
        add_assoc]
      rfl
  rw [← zero_add (total read terms i)]
  exact onward 0 0 laws.zero

theorem chain {links : List (Link T)} {x : T} {a : A} (start : read x = some a)
    (valued : ∀ link ∈ links, ∀ t ∈ link.terms, Valued read t.1 ∧ Valued read (t.2.item i)) :
    read (links.foldl (fun sum link => sum + sumOfTerms link.terms i) x) =
      some (a + totalChain read links i) := by
  induction links generalizing x a with
  | nil => exact start.trans (congrArg some (add_zero a).symm)
  | cons link links ih =>
    obtain ⟨here, later⟩ := List.forall_mem_cons.mp valued
    rw [List.foldl_cons, ih (laws.sum start here) later, add_assoc]
    rfl

end Reading

end Readings

end SignalVector
