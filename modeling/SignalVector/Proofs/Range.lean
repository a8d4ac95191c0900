import SignalVector.Proofs.Lawful
import SignalVector.Proofs.Leaving
import SignalVector.View.Range

/-! A range of a lawful vector is lawful. It shows the elements of its parent from its first index
on, and leaves those before and behind it alone. -/
namespace SignalVector.Range

open Update

variable {σ T : Type} {inv : σ → Prop} {size : Nat} {elements : σ → Array T}

def slice (first length : Nat) (xs : Array T) : Array T := xs.extract first (first + length)

theorem madeFits {parent : Layout σ T} {s : σ} {first length : Nat} {r : Range σ T}
    (made : make parent s first length = .ok r) :
    r = ⟨parent, first, length⟩ ∧ first + length ≤ parent.size s ∧ first + length < Index.limit := by
  unfold make Index.add? at made
  dsimp only at made
  split at made
  · rename_i stop within
    split at within
    · rename_i word
      cases within
      split at made
      · rename_i fits
        cases made
        exact ⟨rfl, fits, word⟩
      · contradiction
    · contradiction
  · contradiction

theorem sizeSlice {first length : Nat} {xs : Array T} (fits : first + length ≤ xs.size) :
    (slice first length xs).size = length := by
  simp only [slice, Array.size_extract]
  omega

theorem sliceModify {first length index : Nat} {xs : Array T} (f : T → T) :
    slice first length (xs.modify (first + index) f) = (slice first length xs).modify index f := by
  apply Array.ext
  · simp [slice]
  · intro i _ _
    simp [slice, Array.getElem_modify]

section Reading

variable {r : Range σ T} {s : σ} {xs : Array T}

theorem cellsHold (parent : (r.parent.cells s).Holds xs) (fits : r.first + r.length ≤ xs.size)
    (word : r.first + r.length < Index.limit) :
    (r.access.cells s).Holds (slice r.first r.length xs) where
  size := (sizeSlice fits).symm
  get i := by
    by_cases inside : i < r.length
    · have add : Index.add r.first i = .ok (r.first + i) := if_pos (by omega)
      have there : i < (slice r.first r.length xs).size := (sizeSlice fits).symm ▸ inside
      simp only [access, checkIndexInside inside, add, bind, Except.bind, parent.get,
        Cells.readSliceInside there, Cells.readSliceInside (by omega : r.first + i < xs.size)]
      simp [slice]
    · have outside : r.length ≤ i := Nat.not_lt.mp inside
      simp only [access, checkIndexOutside outside, bind, Except.bind]
      rw [Cells.readSliceOutside (by rw [sizeSlice fits]; exact outside), sizeSlice fits]
  contiguous _ h := by cases h

end Reading

section Changing

variable {r : Range σ T}

theorem modifyInside {index : Nat} (inside : index < r.length)
    (word : r.first + r.length < Index.limit) (f : T → T) (s : σ) :
    r.access.modify index f s = r.parent.modify (r.first + index) f s := by
  have add : Index.add r.first index = .ok (r.first + index) := if_pos (by omega)
  simp only [access, checkIndexInside inside, okBind, add]

theorem modifyOutside {index : Nat} (outside : r.length ≤ index) (f : T → T) (s : σ) :
    r.access.modify index f s = .error (.refused (.outOfRange index r.length)) s := by
  simp only [access, checkIndexOutside outside, errorBind]

variable (parent : r.parent.toAccess.Lawful inv size elements)
  (fits : r.first + r.length ≤ size) (word : r.first + r.length < Index.limit)

include parent fits word

theorem parentModified {index : Nat} (inside : index < r.length) (f : T → T) {s : σ} (hs : inv s) :
    ∃ s', r.access.modify index f s = .ok () s' ∧ inv s' ∧
      elements s' = (elements s).modify (r.first + index) f := by
  have there : r.first + index < (elements s).size := by rw [parent.sized s hs]; omega
  rw [modifyInside inside word]
  exact tracksRun (parent.modify (r.first + index) f) hs (Flat.modifyInside f there)

theorem accessLawful :
    r.access.Lawful inv r.length (slice r.first r.length ∘ elements) where
  sized s hs := sizeSlice ((parent.sized s hs).symm ▸ fits)
  cells s hs := cellsHold (parent.cells s hs) ((parent.sized s hs).symm ▸ fits) word
  modify index f := by
    intro s hs
    have sized : (slice r.first r.length (elements s)).size = r.length :=
      sizeSlice ((parent.sized s hs).symm ▸ fits)
    by_cases inside : index < r.length
    · obtain ⟨s', run, kept, changed⟩ := parentModified parent fits word inside f hs
      refine tracksOk run ?_ kept
      rw [Function.comp_apply, Function.comp_apply, changed, sliceModify f]
      exact Flat.modifyInside f (sized.symm ▸ inside)
    · have outside : r.length ≤ index := Nat.not_lt.mp inside
      refine tracksError (modifyOutside outside f s) ?_ hs
      rw [Function.comp_apply, Flat.modifyOutside f (sized.symm ▸ outside), sized]
  slots _ _ _ found := by cases found

theorem leavesOutside {j : Nat} (outside : j < r.first ∨ r.first + r.length ≤ j) :
    r.access.Leaves inv fun s => (elements s)[j]? where
  modify index f := by
    intro s hs
    by_cases inside : index < r.length
    · obtain ⟨s', run, kept, changed⟩ := parentModified parent fits word inside f hs
      have other : r.first + index ≠ j := by omega
      rw [run]
      exact ⟨kept, by simp [final, changed, Array.getElem?_modify, other]⟩
    · rw [modifyOutside (Nat.not_lt.mp inside)]
      exact ⟨hs, rfl⟩
  slots _ _ _ found := by cases found

end Changing

theorem accessLeaves {β : Type} {kept : σ → β} {r : Range σ T} (parent : r.parent.Leaves inv kept) :
    r.access.Leaves inv kept where
  modify _ f := leavesBind (leavesLift _) fun _ => leavesBind (leavesLift _) fun i =>
    parent.modify i f
  slots _ _ _ found := by cases found

end SignalVector.Range
