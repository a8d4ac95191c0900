import Mathlib.Data.List.Nodup
import SignalVector.Proofs.Runs
import SignalVector.Proofs.Views

/-! Each index of a view stands for one slot of one base, and different indices for different slots.
Nothing but these slots changes through the view, and no base gets another size or other limits. -/
namespace SignalVector

open Update

variable {T : Type}

def Registry.cell (place : String × Nat) (r : Registry T) : Option T :=
  (valuesOf place.1 r)[place.2]?

theorem Registry.decided {s s' : Registry T} (shapes : s.shapes = s'.shapes)
    (cells : ∀ p, cell p s = cell p s') : s.find? = s'.find? := by
  funext name
  have shape : (s.find? name).map Base.shape = (s'.find? name).map Base.shape := congrFun shapes name
  have values : valuesOf name s = valuesOf name s' := Array.ext_getElem? fun i => cells (name, i)
  cases here : s.find? name with
  | none =>
    rw [here] at shape
    exact (Option.map_eq_none_iff.mp shape.symm).symm
  | some b =>
    rw [here] at shape
    obtain ⟨b', there, alike⟩ := Option.map_eq_some_iff.mp shape.symm
    rw [valuesOf, valuesOf, baseFound here, baseFound there] at values
    rw [there, Base.decided alike.symm values]

namespace View

open Registry (HasShapes cell)

mutual

def places (r : Registry T) : View → List (String × Nat)
  | base name => (List.range (Registry.valuesOf name r).size).map (name, ·)
  | range parent first length => ((parent.places r).drop first).take length
  | blocks parts => placesAll r parts

def placesAll (r : Registry T) : List View → List (String × Nat)
  | [] => []
  | view :: views => view.places r ++ placesAll r views

end

theorem memPlacesAll {r : Registry T} {views : List View} {p : String × Nat} :
    p ∈ placesAll r views ↔ ∃ view ∈ views, p ∈ view.places r := by
  induction views with
  | nil => simp [placesAll]
  | cons view views ih => simp [placesAll, ih]

theorem namedPlaces {r : Registry T} {view : View} {p : String × Nat} (member : p ∈ view.places r) :
    p.1 ∈ view.names := by
  induction view with
  | base name =>
    obtain ⟨i, -, rfl⟩ := List.mem_map.mp member
    exact List.mem_singleton_self name
  | range parent first length ih => exact ih (List.mem_of_mem_drop (List.mem_of_mem_take member))
  | blocks parts ih =>
    obtain ⟨view, there, own⟩ := memPlacesAll.mp member
    exact memNamesAll.mpr ⟨view, there, ih view there own⟩

theorem placesOnce {r : Registry T} {view : View} (once : view.names.Nodup) :
    (view.places r).Nodup := by
  induction view with
  | base name => exact List.Nodup.map (fun i j same => (Prod.mk.inj same).2) List.nodup_range
  | range parent first length ih =>
    exact (ih once).sublist ((List.take_sublist _ _).trans (List.drop_sublist _ _))
  | blocks parts ih =>
    simp only [places, names] at once ⊢
    induction parts with
    | nil => exact .nil
    | cons view views ihViews =>
      obtain ⟨own, later, apart⟩ := List.nodup_append.mp once
      refine List.nodup_append.mpr ⟨ih view List.mem_cons_self own,
        ihViews (fun w member => ih w (List.mem_cons_of_mem view member)) later, ?_⟩
      intro p here q there same
      obtain ⟨w, member, mine⟩ := memPlacesAll.mp there
      exact apart p.1 (namedPlaces here) q.1 (memNamesAll.mpr ⟨w, member, namedPlaces mine⟩)
        (congrArg Prod.fst same)

theorem elementsInPlaces {r s : Registry T} (same : s.HasShapes r.shapes) (view : View) :
    (view.elements s).toList.map some = (view.places r).map (cell · s) := by
  induction view with
  | base name =>
    have sized := Registry.sizeOfShapes same name
    apply List.ext_getElem
    · simpa [elements, places, Registry.valuesOf] using sized
    · intro i inside _
      have there : i < (Registry.valuesOf name s).size := by simpa [elements] using inside
      simp [elements, places, cell, there]
  | range parent first length ih =>
    simp only [elements, places, Function.comp_apply, Range.slice, Array.toList_extract,
      List.extract_eq_take_drop, List.map_take, List.map_drop, ih, Nat.add_sub_cancel_left]
  | blocks parts ih =>
    simp only [elements, places]
    induction parts with
    | nil => rfl
    | cons view views ihViews =>
      simp only [elementsAll, placesAll, Array.toList_append, List.map_append,
        ih view List.mem_cons_self, ihViews fun w member => ih w (List.mem_cons_of_mem view member)]

theorem lengthPlaces (r : Registry T) (view : View) :
    (view.places r).length = (view.elements r).size := by
  have same := congrArg List.length (elementsInPlaces (r := r) (s := r) rfl view)
  simpa using same.symm

theorem elementAt {r s : Registry T} (same : s.HasShapes r.shapes) {view : View} {i : Nat}
    {p : String × Nat} (placed : (view.places r)[i]? = some p) :
    (view.elements s)[i]? = cell p s := by
  have entry := congrArg (·[i]?) (elementsInPlaces same view)
  simp only [List.getElem?_map, placed, Option.map_some, Array.getElem?_toList] at entry
  cases shown : (view.elements s)[i]? with
  | none => simp [shown] at entry
  | some x => simpa [shown] using entry

theorem shownSame {r s s' : Registry T} (hs : s.HasShapes r.shapes) (hs' : s'.HasShapes r.shapes)
    {view : View} (same : view.elements s = view.elements s') {p : String × Nat}
    (shown : p ∈ view.places r) : cell p s = cell p s' := by
  obtain ⟨i, placed⟩ := List.mem_iff_getElem?.mp shown
  rw [← elementAt hs placed, ← elementAt hs' placed, same]

theorem elementsKept {r s s' : Registry T} (hs : s.HasShapes r.shapes) (hs' : s'.HasShapes r.shapes)
    {view : View} (same : ∀ p ∈ view.places r, cell p s = cell p s') :
    view.elements s = view.elements s' := by
  have shown : (view.elements s).toList.map some = (view.elements s').toList.map some := by
    rw [elementsInPlaces hs, elementsInPlaces hs']
    exact List.map_congr_left same
  exact Array.toList_inj.mp ((List.map_inj_right fun _ _ => Option.some.inj).mp shown)

theorem noneBeyond {r s : Registry T} (same : s.HasShapes r.shapes) {p : String × Nat}
    (other : p ∉ places r (.base p.1)) : cell p s = none := by
  have outside : (Registry.valuesOf p.1 r).size ≤ p.2 :=
    Nat.not_lt.mp fun inside =>
      other (List.mem_map.mpr ⟨p.2, List.mem_range.mpr inside, rfl⟩)
  exact Array.getElem?_eq_none (Registry.sizeOfShapes same p.1 ▸ outside)

theorem besideRange {r : Registry T} {parent : View} {first length j : Nat} {p : String × Nat}
    (placed : (parent.places r)[j]? = some p) (other : p ∉ places r (.range parent first length)) :
    j < first ∨ first + length ≤ j := by
  by_contra within
  refine other (List.mem_iff_getElem?.mpr ⟨j - first, ?_⟩)
  rw [places, List.getElem?_take_of_lt (by omega), List.getElem?_drop, Nat.add_sub_cancel' (by omega)]
  exact placed

section Opened

variable [Zero T] [Add T] [Mul T] {r : Registry T} {view : View} {v : Layout (Registry T) T}

/- A slot that the view does not address is another base's, or one that its base does not have, or one
beside the range that was taken. -/
theorem leavesOtherPlaces (opened : Opened r view v) (grounded : view.Grounded r)
    {p : String × Nat} (other : p ∉ view.places r) :
    v.Leaves (HasShapes r.shapes) (cell p) := by
  induction opened with
  | base name =>
    obtain ⟨sh, there, -⟩ := grounded.base
    by_cases own : p.1 = name
    · have any : (Registry.layout name).Leaves (HasShapes r.shapes) fun _ : Registry T => () :=
        Registry.layoutLeaves there fun _ _ => rfl
      subst own
      exact any.determined fun s s' hs hs' _ =>
        (noneBeyond hs other).trans (noneBeyond hs' other).symm
    · refine Registry.layoutLeaves there fun s b => ?_
      have same : (s.store name b).find? p.1 = s.find? p.1 :=
        Registry.lookupReplaceOther own b s.entries
      simp only [cell, Registry.valuesOf, Registry.base, same]
  | @range parent p' first length above fits word ih =>
    by_cases addressed : p ∈ parent.places r
    · obtain ⟨j, placed⟩ := List.mem_iff_getElem?.mp addressed
      have lawful := (layoutLawful above grounded.parent).1.toLawful
      have left := (Range.leavesOutside (r := ⟨p', first, length⟩) lawful (rangeFits above fits).1 word
        (besideRange placed other)).toLayout
      refine left.determined fun s s' hs hs' same => ?_
      rw [← elementAt hs placed, ← elementAt hs' placed]
      exact same
    · exact (Range.accessLeaves (ih grounded.parent addressed)).toLayout
  | @blocks pairs b each made ih =>
    refine Blocks.layoutLeaves (blocksJoin each made) fun part member => ?_
    obtain ⟨q, there, rfl⟩ := List.mem_map.mp member
    have listed : q.1 ∈ pairs.map Prod.fst := List.mem_map_of_mem there
    exact ih q there (grounded.part listed) fun mine =>
      other (memPlacesAll.mpr ⟨q.1, listed, mine⟩)

theorem modifiesPlace (opened : Opened r view v) (grounded : view.Grounded r)
    {s : Registry T} (hs : s.HasShapes r.shapes) {i : Nat} {p : String × Nat}
    (placed : (view.places r)[i]? = some p) (f : T → T) :
    ∃ s', v.modify i f s = .ok () s' ∧ s'.HasShapes r.shapes ∧
      ∀ q, cell q s' = if q = p then (cell q s).map f else cell q s := by
  obtain ⟨lawful, -⟩ := layoutLawful opened grounded
  have inside : i < (view.elements s).size := by
    rw [lawful.sized s hs, ← lengthPlaces]
    exact (List.getElem?_eq_some_iff.mp placed).1
  obtain ⟨s', run, hs', changed⟩ := tracksRun (lawful.modify i f) hs (Flat.modifyInside f inside)
  refine ⟨s', run, hs', fun q => ?_⟩
  by_cases addressed : q ∈ view.places r
  · obtain ⟨j, placed'⟩ := List.mem_iff_getElem?.mp addressed
    rw [← elementAt hs' placed', changed, Array.getElem?_modify, elementAt hs placed']
    by_cases here : i = j
    · subst here
      cases placed.symm.trans placed'
      simp
    · have different : q ≠ p := by
        rintro rfl
        have once := placesOnce (r := r) grounded.once
        have bound := (List.getElem?_eq_some_iff.mp placed).1
        exact here ((List.getElem?_inj bound once).mp (placed.trans placed'.symm))
      simp [here, different]
  · have different : q ≠ p := fun same => addressed (same ▸ List.mem_of_getElem? placed)
    have left := ((leavesOtherPlaces opened grounded addressed).modify i f s hs).2
    rw [run] at left
    rw [if_neg different]
    exact left

theorem writesPlace (opened : Opened r view v) (grounded : view.Grounded r) {s : Registry T}
    (hs : s.HasShapes r.shapes) {i : Nat} {p : String × Nat} (placed : (view.places r)[i]? = some p)
    (x : T) : ∃ s', v.set i x s = .ok () s' ∧ s'.HasShapes r.shapes ∧
      ∀ q, cell q s' = if q = p then some x else cell q s := by
  obtain ⟨s', run, hs', changed⟩ := modifiesPlace opened grounded hs placed fun _ => x
  refine ⟨s', run, hs', fun q => (changed q).trans ?_⟩
  split
  · rename_i here
    have inside : i < (view.elements s).size := by
      rw [(layoutLawful opened grounded).1.sized s hs, ← lengthPlaces]
      exact (List.getElem?_eq_some_iff.mp placed).1
    rw [here, ← elementAt hs placed, Array.getElem?_eq_getElem inside]
    rfl
  · rfl

theorem modifyOutside (opened : Opened r view v) (grounded : view.Grounded r) {s : Registry T}
    (hs : s.HasShapes r.shapes) {i : Nat} (outside : (view.elements r).size ≤ i) (f : T → T) :
    v.modify i f s = .error (.refused (.outOfRange i (view.elements r).size)) s := by
  cases opened with
  | base name =>
    obtain ⟨sh, there, sized, -⟩ := grounded.base
    rw [sized] at outside ⊢
    exact Registry.modifyOutside there hs outside f
  | @range parent p first length above fits word =>
    rw [(rangeFits above fits).2] at outside ⊢
    exact Range.modifyOutside (r := ⟨p, first, length⟩) outside f s
  | @blocks pairs b each made =>
    simp only [elements, ← totalParts (r := r)] at outside ⊢
    exact Blocks.modifyOutside (blocksJoin each made) outside f s

variable [One T] [Neg T] [Magnitude T]

/- The map is read off the registry in which the view was opened, and holds in every other that has
bases of the same shapes, so also after any run. -/
theorem addressesSlots (opened : openIn r view = .ok v) (grounded : view.Grounded r) :
    ∃ place : Fin (v.size r) → String × Nat, Function.Injective place ∧
      ∀ s : Registry T, s.HasShapes r.shapes →
        (∀ i : Fin (v.size r), ∃ x, cell (place i) s = some x ∧ (v.cells s).get i = .ok x) ∧
        (∀ (i : Fin (v.size r)) f, ∃ s', v.modify i f s = .ok () s' ∧ s'.HasShapes r.shapes ∧
          ∀ q, cell q s' = if q = place i then (cell q s).map f else cell q s) ∧
        (∀ (i : Fin (v.size r)) x, ∃ s', v.set i x s = .ok () s' ∧ s'.HasShapes r.shapes ∧
          ∀ q, cell q s' = if q = place i then some x else cell q s) ∧
        (∀ i, v.size r ≤ i →
          (v.cells s).get i = .error (.refused (.outOfRange i (v.size r))) ∧
          (∀ f, v.modify i f s = .error (.refused (.outOfRange i (v.size r))) s) ∧
          ∀ x, v.set i x s = .error (.refused (.outOfRange i (v.size r))) s) ∧
        ∀ ops : List (Operation T), (Operation.runAll v ops s).2.HasShapes r.shapes ∧
          ∀ q, (∀ i, place i ≠ q) → cell q (Operation.runAll v ops s).2 = cell q s := by
  have opened := openedSource opened
  obtain ⟨lawful, -⟩ := layoutLawful opened grounded
  have sized : v.size r = (view.elements r).size := measured opened
  have counted : v.size r = (view.places r).length := sized.trans (lengthPlaces r view).symm
  have placed : ∀ i : Fin (v.size r), (view.places r)[i.1]? = some (view.places r)[i] :=
    fun i => List.getElem?_eq_getElem _
  refine ⟨fun i => (view.places r)[i], ?_, fun s hs => ⟨?_, ?_, ?_, ?_, fun ops => ⟨?_, ?_⟩⟩⟩
  · intro i j same
    exact Fin.ext ((placesOnce grounded.once).getElem_inj_iff.mp same)
  · intro i
    have inside : i.1 < (view.elements s).size := by
      rw [lawful.sized s hs, ← sized]
      exact i.2
    refine ⟨(view.elements s)[i.1], ?_, ?_⟩
    · rw [← elementAt hs (placed i), Array.getElem?_eq_getElem inside]
    · rw [(lawful.cells s hs).get, Cells.readSliceInside inside]
  · exact fun i f => modifiesPlace opened grounded hs (placed i) f
  · exact fun i x => writesPlace opened grounded hs (placed i) x
  · intro i outside
    rw [sized] at outside ⊢
    have refused := modifyOutside opened grounded hs outside
    refine ⟨?_, refused, fun x => refused fun _ => x⟩
    rw [(lawful.cells s hs).get, Cells.readSliceOutside ((lawful.sized s hs).symm ▸ outside),
      lawful.sized s hs]
  · have any : v.Leaves (HasShapes r.shapes) fun _ => () :=
      layoutLeaves opened grounded fun _ _ _ _ => rfl
    exact (Operation.runAllLeaves any ops hs).1
  · intro q apart
    have other : q ∉ view.places r := by
      intro addressed
      obtain ⟨j, bound, rfl⟩ := List.mem_iff_getElem.mp addressed
      exact apart ⟨j, counted.symm ▸ bound⟩ rfl
    exact (Operation.runAllLeaves (leavesOtherPlaces opened grounded other) ops hs).2

end Opened

theorem addressesSlotsTail :
    ∃ place : Fin (tailOpened.size twoBases) → String × Nat, Function.Injective place ∧
      (∀ i, ∃ x, cell (place i) twoBases = some x ∧ (tailOpened.cells twoBases).get i = .ok x) ∧
      ∃ s, tailOpened.set 0 7 twoBases = .ok () s ∧ cell (place ⟨0, by decide⟩) s = some 7 ∧
        tailOpened.set 3 7 twoBases = .error (.refused (.outOfRange 3 3)) twoBases := by
  obtain ⟨place, injective, all⟩ := addressesSlots opensTail groundedTail
  obtain ⟨reads, -, writes, refuses, -⟩ := all twoBases rfl
  obtain ⟨s, run, -, written⟩ := writes ⟨0, by decide⟩ 7
  exact ⟨place, injective, reads, s, run, (written _).trans (if_pos rfl),
    (refuses 3 (by decide)).2.2 7⟩

end View

end SignalVector
