import Mathlib.Algebra.MvPolynomial.PDeriv
import SignalVector.Proofs.Duals
import SignalVector.Proofs.Programs

/-! Dual numbers differentiate. A program of ring operations, run on dual numbers, leaves in every
register the value of the polynomial that the register stands for, and in every slot the derivative
of that polynomial along the slots of the inputs. -/
namespace SignalVector

open MvPolynomial (C X eval pderiv)

inductive Given (R : Type) (m : Nat) where
  | number (c : R)
  | input (i : Fin m)
  deriving DecidableEq

variable {R : Type} [CommRing R] {m n : Nat}

namespace Given

noncomputable def polynomial : Given R m → MvPolynomial (Fin m) R
  | number c => C c
  | input i => X i

def value (values : Fin m → R) : Given R m → R
  | number c => c
  | input i => values i

def dual (inputs : Fin m → Dual R n) : Given R m → Dual R n
  | number c => .constant c
  | input i => inputs i

theorem evalPolynomial (values : Fin m → R) (g : Given R m) :
    eval values g.polynomial = g.value values := by
  cases g with
  | number c => exact MvPolynomial.eval_C c
  | input i => exact MvPolynomial.eval_X i

end Given

theorem evalRespects (values : Fin m → R) : RespectsRing (eval values) where
  zero := map_zero _
  one := map_one _
  neg := map_neg _
  add := map_add _
  sub := map_sub _
  mul := map_mul _

namespace Dual

variable (inputs : Fin m → Dual R n) {j : Nat} (h : j < n)

def point (i : Fin m) : R := (inputs i).value

noncomputable def slope (q : MvPolynomial (Fin m) R) : R :=
  ∑ i, eval (point inputs) (pderiv i q) * (inputs i).derivatives[j]

noncomputable def along (q : MvPolynomial (Fin m) R) : Dual R n :=
  ⟨eval (point inputs) q, .ofFn fun j => slope inputs j.isLt q⟩

@[simp] theorem valueAlong (q : MvPolynomial (Fin m) R) :
    (along inputs q).value = eval (point inputs) q := rfl

@[simp] theorem slotAlong (q : MvPolynomial (Fin m) R) :
    (along inputs q).derivatives[j] = slope inputs h q := by
  simp [along]

theorem slopeConstant (c : R) : slope inputs h (C c) = 0 := by
  simp [slope]

theorem slopeInput (i : Fin m) : slope inputs h (X i) = (inputs i).derivatives[j] := by
  simp [slope, MvPolynomial.pderiv_X, Pi.single_apply]

theorem slopeNeg (p : MvPolynomial (Fin m) R) : slope inputs h (-p) = -slope inputs h p := by
  simp [slope]

theorem slopeAdd (p q : MvPolynomial (Fin m) R) :
    slope inputs h (p + q) = slope inputs h p + slope inputs h q := by
  simp [slope, add_mul, Finset.sum_add_distrib]

theorem slopeMul (p q : MvPolynomial (Fin m) R) :
    slope inputs h (p * q) = slope inputs h p * eval (point inputs) q +
      eval (point inputs) p * slope inputs h q := by
  simp only [slope, MvPolynomial.pderiv_mul, map_add, map_mul, Finset.sum_mul, Finset.mul_sum,
    ← Finset.sum_add_distrib]
  refine Finset.sum_congr rfl fun i _ => ?_
  ring

theorem alongConstant (c : R) : along inputs (C c) = constant c := by
  refine ext (MvPolynomial.eval_C c) fun j h => ?_
  simp [slopeConstant]

theorem alongNeg (p : MvPolynomial (Fin m) R) : along inputs (-p) = -along inputs p := by
  refine ext (by simp) fun j h => ?_
  simp [slopeNeg]

theorem alongAdd (p q : MvPolynomial (Fin m) R) :
    along inputs (p + q) = along inputs p + along inputs q := by
  refine ext (by simp) fun j h => ?_
  simp [slopeAdd]

theorem alongMul (p q : MvPolynomial (Fin m) R) :
    along inputs (p * q) = along inputs p * along inputs q := by
  refine ext (by simp) fun j h => ?_
  simp [slopeMul]

theorem alongRespects : RespectsRing (along inputs) where
  zero := (congrArg (along inputs) (map_zero C).symm).trans (alongConstant inputs 0)
  one := (congrArg (along inputs) (map_one C).symm).trans (alongConstant inputs 1)
  neg := alongNeg inputs
  add := alongAdd inputs
  -- a difference of dual numbers is the sum with a negation
  sub p q := by
    rw [sub_eq_add_neg, alongAdd, alongNeg]
    rfl
  mul := alongMul inputs

theorem alongGiven (g : Given R m) : along inputs g.polynomial = g.dual inputs := by
  cases g with
  | number c => exact alongConstant inputs c
  | input i =>
    refine ext (MvPolynomial.eval_X i) fun j h => ?_
    simp [Given.polynomial, Given.dual, slopeInput]

/- Inputs that are variables themselves leave only the derivatives with respect to those seeded in the
slot. -/
theorem slopeSeeded {inputs : Fin m → Dual R n} {c : Fin m → R} {slots : Fin m → Nat}
    (seeds : ∀ i, seeded (c i) (slots i) = .ok (inputs i)) (q : MvPolynomial (Fin m) R) :
    slope inputs h q = ∑ i with slots i = j, eval c (pderiv i q) := by
  have same : point inputs = c := funext fun k => (seededSlots (seeds k)).1
  simp only [slope, same, (seededSlots (seeds _)).2 j h, mul_ite, mul_one, mul_zero,
    Finset.sum_filter]

end Dual

namespace Program

variable [LT R] [DecidableLT R] [Magnitude R] [Magnitude (MvPolynomial (Fin m) R)]

/- The polynomials of the registers are those of the same program, run on polynomials. How these are
compared in size does not matter, as no step asks for it. -/
theorem runDifferentiates {p : Program (Given R m)} (ring : ∀ t ∈ p, t.Polynomial)
    (written : p.Scoped 0) (inputs : Fin m → Dual R n) :
    ∃ (qs : Array (MvPolynomial (Fin m) R)) (ds : Array (Dual R n)),
      run (fun g => .ok g.polynomial) p #[] = .ok qs ∧ qs.size = p.length ∧
      run (fun g => .ok (g.value (Dual.point inputs))) p #[] =
        .ok (qs.map (eval (Dual.point inputs))) ∧
      run (fun g => .ok (g.dual inputs)) p #[] = .ok ds ∧ ds.size = p.length ∧
      ∀ (k : Nat) (q : MvPolynomial (Fin m) R) (d : Dual R n), qs[k]? = some q → ds[k]? = some d →
        d.value = eval (Dual.point inputs) q ∧
        ∀ j (h : j < n),
          d.derivatives[j] = ∑ i, eval (Dual.point inputs) (pderiv i q) *
            (inputs i).derivatives[j] ∧
          ∀ slots : Fin m → Nat, (∀ i, Dual.seeded (inputs i).value (slots i) = .ok (inputs i)) →
            d.derivatives[j] = ∑ i with slots i = j, eval (Dual.point inputs) (pderiv i q) := by
  have started : p.Scoped (#[] : Array (MvPolynomial (Fin m) R)).size := written
  obtain ⟨qs, ran, count⟩ := runScoped Given.polynomial started
  have onNumbers := runMaps (evalRespects (Dual.point inputs)) Given.polynomial ring started ran
  have onDuals := runMaps (Dual.alongRespects inputs) Given.polynomial ring started ran
  simp only [Given.evalPolynomial, Dual.alongGiven, Array.map_empty] at onNumbers onDuals
  have full : qs.size = p.length := by simpa using count
  refine ⟨qs, qs.map (Dual.along inputs), ran, full, onNumbers, onDuals, ?_, ?_⟩
  · rw [Array.size_map, full]
  · intro k q d polynomial dual
    rw [Array.getElem?_map, polynomial] at dual
    cases dual
    refine ⟨rfl, fun j h => ⟨Dual.slotAlong inputs h q, fun slots seeds => ?_⟩⟩
    rw [Dual.slotAlong, Dual.slopeSeeded h seeds]
    rfl

def shiftedSquare : Program (Given Int 2) :=
  [.add (.mul (.leaf (.input (.input 0))) (.leaf (.input (.input 1)))) (.leaf (.input (.input 0))),
    .sub (.mul (.leaf (.register 0)) (.leaf (.register 0))) (.neg (.leaf (.input (.number 3))))]

theorem runDifferentiatesShared :
    letI : Magnitude Int := ⟨fun a => |a|, max⟩
    letI : Magnitude (MvPolynomial (Fin 2) Int) := ⟨id, fun a _ => a⟩
    ∃ qs : Array (MvPolynomial (Fin 2) Int),
      run (fun g => .ok g.polynomial) shiftedSquare #[] = .ok qs ∧
      ∃ q, qs[1]? = some q ∧ eval ![3, 4] q = 228 ∧ eval ![3, 4] (pderiv 0 q) = 150 ∧
        eval ![3, 4] (pderiv 1 q) = 90 := by
  let _ : Magnitude Int := ⟨fun a => |a|, max⟩
  let _ : Magnitude (MvPolynomial (Fin 2) Int) := ⟨id, fun a _ => a⟩
  let inputs : Fin 2 → Dual Int 2 := ![⟨3, #v[1, 0]⟩, ⟨4, #v[0, 1]⟩]
  have ring : ∀ t ∈ shiftedSquare, t.Polynomial := by
    intro t member
    rcases List.mem_cons.mp member with rfl | last
    · exact .add (.mul (.leaf _) (.leaf _)) (.leaf _)
    · cases List.mem_singleton.mp last
      exact .sub (.mul (.leaf _) (.leaf _)) (.neg (.leaf _))
  have written : shiftedSquare.Scoped 0 := by
    simp [shiftedSquare, Scoped, Term.leaves]
  have dual : run (fun g => .ok (g.dual inputs)) shiftedSquare #[] =
      .ok #[⟨15, #v[5, 3]⟩, ⟨228, #v[150, 90]⟩] := by
    obtain ⟨first, second, -⟩ := written
    rw [shiftedSquare, runStep (Given.dual inputs) first, runStep (Given.dual inputs) second]
    cbv
  have here : Dual.point inputs = ![3, 4] := by
    funext i
    fin_cases i <;> rfl
  have seeds : ∀ i : Fin 2, Dual.seeded (inputs i).value i = .ok (inputs i) := by
    intro i
    fin_cases i <;> rfl
  obtain ⟨qs, ds, ran, count, -, onDuals, -, each⟩ := runDifferentiates ring written inputs
  cases dual.symm.trans onDuals
  have inside : 1 < qs.size := by rw [count]; decide
  have last : qs[1]? = some qs[1] := Array.getElem?_eq_getElem inside
  obtain ⟨value, slots⟩ := each 1 _ _ last rfl
  have first := (slots 0 (by decide)).2 (·) seeds
  have second := (slots 1 (by decide)).2 (·) seeds
  rw [here] at value first second
  refine ⟨qs, ran, qs[1], last, value.symm, ?_, ?_⟩
  · simpa [Finset.sum_filter] using first.symm
  · simpa [Finset.sum_filter] using second.symm

end Program

end SignalVector
