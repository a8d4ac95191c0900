import SignalVector.Proofs.Runs
import SignalVector.Proofs.Views

/-! Nesting cannot be observed. Whatever is called through a view, one flat vector that starts with
the flattened elements gives the same outcomes, and holds at each moment what the view shows. -/
namespace SignalVector

open Operation (runAll)

variable {T : Type} [Zero T] [One T] [Add T] [Mul T] [Neg T] [Magnitude T]

theorem contiguousAgrees {xs : Array T} (small : xs.size < Index.limit) (ops : List (Operation T))
    (coherent : ∀ op ∈ ops, ∀ c ∈ op.operands, c.Coherent) :
    Operation.Agree (Contiguous.HasShape (Contiguous.ofArray xs).shape) Contiguous.values
      (runAll Contiguous.layout ops (Contiguous.ofArray xs)) (runAll Flat.layout ops xs) :=
  Operation.runAllAgrees Contiguous.layoutLawful small ops coherent rfl

/- Both sides are lawful and begin with the same elements, so both follow the vector of nothing but
elements; no law of the scalars is used. -/
theorem runAllFlattened {r : Registry T} {view : View} {v : Layout (Registry T) T}
    (opened : view.openIn r = .ok v) (grounded : view.Grounded r) (ops : List (Operation T))
    (shown : ∀ op ∈ ops, ∀ c ∈ op.operands, View.Shows c) :
    (runAll v ops r).1 =
        (runAll Contiguous.layout ops (Contiguous.ofArray (view.elements r))).1 ∧
      ∀ steps : Nat,
        let s := (runAll v (ops.take steps) r).2
        let flat := (runAll Contiguous.layout (ops.take steps)
          (Contiguous.ofArray (view.elements r))).2
        view.elements s = flat.values ∧ (v.cells s).Holds flat.values := by
  obtain ⟨lawful, small⟩ := View.layoutLawful (View.openedSource opened) grounded
  have coherent : ∀ op ∈ ops, ∀ c ∈ op.operands, c.Coherent :=
    fun op member c there => View.coherent (shown op member c there)
  have through := Operation.runAllAgrees lawful small ops coherent (s := r) rfl
  have flatly := contiguousAgrees small ops coherent
  refine ⟨through.1.trans flatly.1.symm, fun steps => ?_⟩
  have before : ∀ op ∈ ops.take steps, ∀ c ∈ op.operands, c.Coherent :=
    fun op member => coherent op (List.mem_of_mem_take member)
  obtain ⟨-, shows, kept⟩ := Operation.runAllAgrees lawful small (ops.take steps) before (s := r) rfl
  obtain ⟨-, holds, -⟩ := contiguousAgrees small (ops.take steps) before
  have same := shows.trans holds.symm
  exact ⟨same, same ▸ lawful.cells _ kept⟩

theorem runAllFlattenedTail :
    let ops : List (Operation Float) :=
      [.set 0 7, .setFrom (View.tailOpened.cells View.twoBases),
        .chain [.subtract (View.tailOpened.cells View.twoBases)], .get 3, .normInf]
    (runAll View.tailOpened ops View.twoBases).1 =
      (runAll Contiguous.layout ops (Contiguous.ofArray #[2, 3, 4])).1 := by
  intro ops
  have tail : ∀ op ∈ ops, ∀ c ∈ op.operands, c = View.tailOpened.cells View.twoBases := by
    simp [ops, Operation.operands, Link.vectors]
  exact (runAllFlattened View.opensTail View.groundedTail ops
    fun op member c there => tail op member c there ▸ View.showsTail).1

end SignalVector
