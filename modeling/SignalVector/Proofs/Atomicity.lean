import SignalVector.Proofs.Defaults
import SignalVector.Proofs.Addressing

/-! Transfers are done as a whole or not at all. The size of the whole vector is compared with the
other side before the first element moves, and behind that check no part refuses its own share. -/
namespace SignalVector

open Update

variable {σ T β : Type}

def Update.Fills (form : Array T → β) (size : Nat) (f : T → T → T) (items : Array T)
    (u : Update β Unit) : Prop :=
  ∀ target, u (form target) =
    if size = target.size then .ok () (form (Array.zipWith f target items))
    else .error (.refused (.sizeMismatch size target.size)) (form target)

structure Layout.AllOrNothing [Add T] [Mul T] (v : Layout σ T) (inv : σ → Prop) (size : Nat)
    (elements : σ → Array T) : Prop where
  copyInto : ∀ s, inv s → Fills id size (fun _ x => x) (elements s) (v.copyInto s)
  scaleAndAddInto : ∀ s, inv s → ∀ scale,
    Fills id size (fun old x => old + scale * x) (elements s) (v.scaleAndAddInto scale s)
  copyToTarget : ∀ s, inv s → Fills some size (fun _ x => x) (elements s) (v.copyToTarget s)
  scaleAndAddToTarget : ∀ s, inv s → ∀ scale,
    Fills some size (fun old x => old + scale * x) (elements s) (v.scaleAndAddToTarget scale s)
  noTarget : ∀ s, v.copyToTarget s none = .error (.refused .missingTarget) none ∧
    ∀ scale, v.scaleAndAddToTarget scale s none = .error (.refused .missingTarget) none
  refresh : ∀ s, inv s → Fills Frame.mk size (fun _ x => x) (elements s) (Frame.refresh v s)
  restore : ∀ frame : Frame T, Writes inv elements size frame.length frame.values (frame.restore v)
  assign : ∀ values, Writes inv elements size values.size values (v.assign values)
  setFrom : ∀ source xs, source.Reads xs → Writes inv elements size xs.size xs (v.setFrom source)

namespace Update

theorem fillsCombine {f : T → T → T} {items : Array T} {size : Nat} (sized : items.size = size) :
    Fills id size f items (Flat.combine f items) := fun _ => sized ▸ rfl

theorem fillsWrap {size : Nat} {f : T → T → T} {items : Array T} {copy : Update (Array T) Unit}
    (h : Fills id size f items copy) (form : Array T → β) {u : Update β Unit}
    (wrapped : ∀ target, u (form target) = copy.wrap form target) : Fills form size f items u := by
  intro target
  have run : copy target = _ := h target
  by_cases same : size = target.size
  · simp only [wrapped, wrap, run, if_pos same, id]
  · simp only [wrapped, wrap, run, if_neg same, id]

end Update

section Lawful

variable [Zero T] [Add T] [Mul T] {v : Layout σ T} {inv : σ → Prop} {size : Nat}
  {elements : σ → Array T} (h : v.Lawful inv size elements)

include h

theorem Layout.Lawful.setsFrom {source : Cells T} {xs : Array T} (reads : source.Reads xs) :
    Writes inv elements size xs.size xs (v.setFrom source) := by
  intro s hs
  constructor
  · intro same
    exact tracksRun (h.reaches.setFrom reads) hs (Flat.assignFits ((h.sized s hs).trans same))
  · intro other
    rw [← reads.size] at other ⊢
    exact Layout.setFromMisfit (h.sizeAt hs) other

theorem Layout.Lawful.allOrNothing (refuses : ∀ s, inv s → ∀ values : Array T, size ≠ values.size →
    v.assign values s = .error (.refused (.sizeMismatch size values.size)) s) :
    v.AllOrNothing inv size elements := by
  have copies : ∀ s, inv s → Fills id size (fun _ x => x) (elements s) (v.copyInto s) := by
    intro s hs
    rw [h.copyInto s hs]
    exact fillsCombine (h.sized s hs)
  have adds : ∀ s, inv s → ∀ scale, Fills id size (fun old x => old + scale * x) (elements s)
      (v.scaleAndAddInto scale s) := by
    intro s hs scale
    rw [h.scaleAndAddInto scale s hs]
    exact fillsCombine (h.sized s hs)
  have assigns : ∀ values, Writes inv elements size values.size values (v.assign values) := by
    intro values s hs
    refine ⟨fun same => ?_, refuses s hs values⟩
    exact tracksRun (h.assign values) hs (Flat.assignFits ((h.sized s hs).trans same))
  exact {
    copyInto := copies
    scaleAndAddInto := adds
    copyToTarget := fun s hs => fillsWrap (copies s hs) some fun _ => rfl
    scaleAndAddToTarget := fun s hs scale => fillsWrap (adds s hs scale) some fun _ => rfl
    noTarget := fun _ => ⟨rfl, fun _ => rfl⟩
    refresh := fun s hs => fillsWrap (copies s hs) Frame.mk fun _ => rfl
    restore := fun frame => assigns frame.values
    assign := assigns
    setFrom := fun _ _ => h.setsFrom }

end Lawful

namespace View

open Registry (HasShapes)

variable [Zero T] [Add T] [Mul T] {r : Registry T} {view : View} {v : Layout (Registry T) T}

theorem assignMisfit (opened : Opened r view v) (grounded : view.Grounded r) {s : Registry T}
    (hs : s.HasShapes r.shapes) {values : Array T} (other : (view.elements r).size ≠ values.size) :
    v.assign values s = .error (.refused (.sizeMismatch (view.elements r).size values.size)) s := by
  cases opened with
  | base name =>
    obtain ⟨sh, there, sized, -⟩ := grounded.base
    rw [sized] at other ⊢
    exact Registry.assignMisfit there hs other
  | @range parent p first length above fits word =>
    rw [(rangeFits above fits).2] at other ⊢
    exact (Range.mk p first length).access.assignMisfit rfl other
  | @blocks pairs b each made =>
    simp only [elements, ← totalParts (r := r)] at other ⊢
    exact Blocks.assignMisfit (blocksJoin each made) other s

theorem transfersWhole (opened : openIn r view = .ok v) (grounded : view.Grounded r) :
    (∀ s : Registry T, s.HasShapes r.shapes → v.size s = v.size r ∧
      (v.cells s).Holds (view.elements s) ∧ v.toArray s = .ok (view.elements s)) ∧
    v.AllOrNothing (HasShapes r.shapes) (v.size r) view.elements := by
  have opened := openedSource opened
  obtain ⟨lawful, -⟩ := layoutLawful opened grounded
  have sized : v.size r = (view.elements r).size := measured opened
  rw [sized]
  exact ⟨fun s hs => ⟨lawful.sizeAt hs, lawful.cells s hs, lawful.toArray s hs⟩,
    lawful.allOrNothing fun s hs values other => assignMisfit opened grounded hs other⟩

theorem transfersWholeTail :
    tailOpened.assign #[7, 8] twoBases = .error (.refused (.sizeMismatch 3 2)) twoBases ∧
      tailOpened.copyInto twoBases #[7, 8] = .error (.refused (.sizeMismatch 3 2)) #[7, 8] ∧
      (∃ s', tailOpened.assign #[7, 8, 9] twoBases = .ok () s' ∧
        tailOpened.toArray s' = .ok #[7, 8, 9]) ∧
      tailOpened.scaleAndAddToTarget 2 twoBases (some #[7, 8, 9]) =
        .ok () (some #[7 + 2 * 2, 8 + 2 * 3, 9 + 2 * 4]) := by
  obtain ⟨shows, whole⟩ := transfersWhole opensTail groundedTail
  obtain ⟨s', run, kept, written⟩ := (whole.assign #[7, 8, 9] twoBases rfl).1 rfl
  have added := whole.scaleAndAddToTarget twoBases rfl 2 #[7, 8, 9]
  have items : Array.zipWith (fun old x => old + 2 * x) #[7, 8, 9] (tailJoined.elements twoBases) =
      #[7 + 2 * 2, 8 + 2 * 3, 9 + 2 * 4] := by
    apply Array.toList_inj.mp
    rw [Array.toList_zipWith]
    rfl
  rw [items] at added
  refine ⟨(whole.assign #[7, 8] twoBases rfl).2 (by decide), whole.copyInto twoBases rfl #[7, 8],
    ⟨s', run, written ▸ (shows s' kept).2.2⟩, added⟩

end View

end SignalVector
