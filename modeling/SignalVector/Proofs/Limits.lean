import SignalVector.Proofs.Addressing

/-! Limits of elements that a view shows. They belong to the bases, and no view passes them on: only
a base by itself answers for its elements, and every other view admits all values. -/
namespace SignalVector.View

variable {T : Type} {r s : Registry T} {view : View}

theorem placedInBase {name : String} {i : Nat} {p : String × Nat}
    (placed : (places r (.base name))[i]? = some p) : p = (name, i) := by
  simp only [places, List.getElem?_map, Option.map_eq_some_iff] at placed
  obtain ⟨j, found, rfl⟩ := placed
  obtain ⟨inside, same⟩ := List.getElem?_eq_some_iff.mp found
  rw [List.getElem_range] at same
  rw [same]

variable [Zero T] [Add T] [Mul T] {v : Layout (Registry T) T}

def slotAdmits (s : Registry T) (p : String × Nat) (x : Float) : Bool :=
  ((Registry.layout p.1).bounds s).admits p.2 x

theorem unlimited (opened : Opened r view v) (other : ¬ ∃ name, view = .base name) :
    v.bounds s = .unbounded := by
  cases opened with
  | base name => exact absurd ⟨name, rfl⟩ other
  | range above fits word => rfl
  | blocks each made => rfl

theorem readsSlot {p : String × Nat} {y : T} (stands : Registry.cell p s = some y) :
    ((Registry.layout p.1).cells s).get p.2 = .ok y := by
  obtain ⟨inside, rfl⟩ := Array.getElem?_eq_some_iff.mp stands
  exact ((Base.cellsHold (s.base p.1)).get p.2).trans (Cells.readSliceInside inside)

structure LimitsCompare (view : View) (v : Layout (Registry T) T) (s : Registry T) (i : Nat)
    (p : String × Nat) (x : Float) : Prop where
  element : ∃ y, (v.cells s).get i = .ok y ∧ ((Registry.layout p.1).cells s).get p.2 = .ok y
  admits : (v.bounds s).admits i x = true ↔ (∃ name, view = .base name) → slotAdmits s p x = true
  agree : (v.bounds s).admits i x = slotAdmits s p x ↔
    (∃ name, view = .base name) ∨ slotAdmits s p x = true

/- Behind a range or blocks the answers differ wherever the base does not admit the value. -/
theorem limitsCompare (opened : openIn r view = .ok v) (measured : s.HasShapes r.shapes) {i : Nat}
    (inside : i < v.size s) :
    ∃ p, (view.places r)[i]? = some p ∧ ∀ x, LimitsCompare view v s i p x := by
  have source := openedSource opened
  obtain ⟨held, same⟩ := cellsHold source measured
  have within : i < (view.elements s).size := held.size ▸ inside
  have placed : i < (view.places r).length := by rwa [lengthPlaces, ← same]
  have there : (view.places r)[i]? = some (view.places r)[i] := List.getElem?_eq_getElem placed
  refine ⟨(view.places r)[i], there, fun x => ?_⟩
  have stands : Registry.cell (view.places r)[i] s = some (view.elements s)[i] :=
    (elementAt measured there).symm.trans (Array.getElem?_eq_getElem within)
  have element := (held.get i).trans (Cells.readSliceInside within)
  by_cases base : ∃ name, view = .base name
  · have own : (v.bounds s).admits i x = slotAdmits s (view.places r)[i] x := by
      obtain ⟨name, rfl⟩ := base
      rw [placedInBase there]
      cases opened
      rfl
    refine ⟨⟨_, element, readsSlot stands⟩, ?_, iff_of_true own (.inl base)⟩
    rw [own]
    exact ⟨fun here _ => here, fun some => some base⟩
  · have all : (v.bounds s).admits i x = true := by
      rw [unlimited source base]
      rfl
    refine ⟨⟨_, element, readsSlot stands⟩, iff_of_true all fun some => absurd some base, ?_⟩
    rw [all, or_iff_right base, eq_comm]

def limited : Registry Float := ⟨[("a", .contiguous ⟨#[0], ⟨#[0], #[1]⟩⟩)]⟩

theorem limitsCompareLimited : ∃ v, openIn limited (.blocks [.base "a"]) = .ok v ∧
    ∃ p, (places limited (.blocks [.base "a"]))[0]? = some p ∧
      ∀ x, LimitsCompare (.blocks [.base "a"]) v limited 0 p x := by
  have opened : openIn limited (.blocks [.base "a"]) =
      .ok (Blocks.layout ⟨[Registry.layout "a"], [0, 1]⟩) := rfl
  exact ⟨_, opened, limitsCompare opened rfl (by decide)⟩

theorem limitsForgotten : ∃ v, openIn limited (.range (.base "a") 0 1) = .ok v ∧
    (places limited (.range (.base "a") 0 1))[0]? = some ("a", 0) ∧
    (v.bounds limited).admits 0 2 = true ∧ slotAdmits limited ("a", 0) 2 = false :=
  ⟨_, rfl, rfl, rfl, by decide⟩

end SignalVector.View
