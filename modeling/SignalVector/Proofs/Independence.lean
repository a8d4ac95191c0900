import SignalVector.Proofs.Reopening

/-! Views that have no slot in common are independent. Calls through the one neither show through
the other nor undo what was done through it, so the two may be called in either order, also where
calls fail or a view does not open. -/
namespace SignalVector.View

open Registry (cell)

section Orders

variable {T : Type} [Zero T] [One T] [Add T] [Mul T] [Neg T] [Magnitude T] {r : Registry T}
  {a b : View} {f g : List (Operation T)}

/- Neither view reaches the slots of the other, and what calls leave in the slots of their own view
depends on nothing else. -/
theorem callsCommute (groundedA : a.Grounded r) (groundedB : b.Grounded r)
    (apart : (a.addressed r).Disjoint (b.addressed r))
    (showsA : ∀ op ∈ f, ∀ c ∈ op.operands, Shows c)
    (showsB : ∀ op ∈ g, ∀ c ∈ op.operands, Shows c) :
    let firstA := a.calls f r
    let thenB := b.calls g firstA.2
    let firstB := b.calls g r
    let thenA := a.calls f firstB.2
    thenA.1 = firstA.1 ∧ thenB.1 = firstB.1 ∧ thenB.2.find? = thenA.2.find? := by
  have shapesA := callsKeepShapes groundedA f
  have shapesB := callsKeepShapes groundedB g
  have hiddenA : ∀ p ∈ b.addressed r, cell p (a.calls f r).2 = cell p r :=
    fun p member => callsLeave groundedA f fun own => apart own member
  have hiddenB : ∀ p ∈ a.addressed r, cell p (b.calls g r).2 = cell p r :=
    fun p member => callsLeave groundedB g (apart member)
  obtain ⟨sameA, ownA⟩ := callsLocal shapesB groundedA hiddenB showsA
  obtain ⟨sameB, ownB⟩ := callsLocal shapesA groundedB hiddenA showsB
  have groundedA' := groundedA.sameShapes shapesB
  have groundedB' := groundedB.sameShapes shapesA
  have leftA : ∀ p ∉ a.addressed r, cell p (a.calls f (b.calls g r).2).2 = cell p (b.calls g r).2 :=
    fun p other => callsLeave groundedA' f ((addressedSame shapesB a).symm ▸ other)
  have leftB : ∀ p ∉ b.addressed r, cell p (b.calls g (a.calls f r).2).2 = cell p (a.calls f r).2 :=
    fun p other => callsLeave groundedB' g ((addressedSame shapesA b).symm ▸ other)
  refine ⟨sameA, sameB, Registry.decided ?_ fun p => ?_⟩
  · rw [callsKeepShapes groundedB' g, callsKeepShapes groundedA' f, shapesA, shapesB]
  · by_cases inA : p ∈ a.addressed r
    · rw [leftB p (apart inA), ownA p inA]
    · rw [leftA p inA]
      by_cases inB : p ∈ b.addressed r
      · exact ownB p inB
      · rw [leftB p inB, callsLeave groundedA f inA, callsLeave groundedB g inB]

end Orders

def outer : View := .blocks [.range (.base "left") 0 1, .range (.base "right") 1 1]

def inner : View := .blocks [.range (.base "right") 0 1, .range (.base "left") 1 1]

theorem groundedOuter : outer.Grounded twoBases := ⟨groundedTail.bases, by decide⟩

theorem groundedInner : inner.Grounded twoBases := by
  have same : ∀ name ∈ inner.names, name ∈ outer.names := by decide
  exact ⟨fun name member => groundedOuter.bases name (same name member), by decide⟩

theorem callsCommuteCrossed :
    let f : List (Operation Float) := [.set 0 7, .assign #[1]]
    let g : List (Operation Float) := [.setFrom ((Registry.layout "left").cells twoBases)]
    let thenInner := inner.calls g (outer.calls f twoBases).2
    let thenOuter := outer.calls f (inner.calls g twoBases).2
    thenOuter.1 = .ok [⟨.ok .done, none⟩, ⟨.error (.refused (.sizeMismatch 2 1)), none⟩] ∧
      thenInner.1 = .ok [⟨.ok .done, none⟩] ∧ thenInner.2.find? = thenOuter.2.find? := by
  have places : outer.addressed twoBases = [("left", 0), ("right", 1)] := rfl
  have places' : inner.addressed twoBases = [("right", 0), ("left", 1)] := rfl
  refine callsCommute groundedOuter groundedInner ?_ ?_ ?_
  · rw [places, places']
    exact List.disjoint_left.mpr (by decide)
  · simp [Operation.operands]
  · simpa [Operation.operands] using showsLeft

end SignalVector.View
