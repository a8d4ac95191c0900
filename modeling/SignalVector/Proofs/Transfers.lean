import SignalVector.Proofs.Reopening

/-! A snapshot undoes whatever was done through the view it was taken of, and elements go from one
view to another by any route. A frame holds what the view shows, nothing but what the view shows has
changed since, and each route writes what the source shows over what the target shows. -/
namespace SignalVector.View

open Update
open Registry (HasShapes cell)
open Operation (runAll)

variable {T : Type}

theorem leavesOtherNames [Zero T] [Add T] [Mul T] {r : Registry T} {view : View}
    {v : Layout (Registry T) T} (opened : Opened r view v) (grounded : view.Grounded r)
    {name : String} (other : name ∉ view.names) : v.Leaves (HasShapes r.shapes) (·.find? name) :=
  layoutLeaves opened grounded fun _ own s b =>
    Registry.lookupReplaceOther (ne_of_mem_of_not_mem own other).symm b s.entries

section Snapshots

variable [Zero T] [Add T] [Mul T] {r s : Registry T} {view : View} {v : Layout (Registry T) T}
  (opened : Opened r view v) (grounded : view.Grounded r) (hs : s.HasShapes r.shapes)

include opened grounded hs

theorem captures : Frame.capture v s = .ok ⟨view.elements s⟩ := by
  obtain ⟨lawful, -⟩ := layoutLawful opened grounded
  simp only [Frame.capture, lawful.toArray s hs]
  rfl

theorem copies {buffer : Array T} (same : buffer.size = v.size s) :
    v.copyInto s buffer = .ok () (view.elements s) := by
  obtain ⟨lawful, -⟩ := layoutLawful opened grounded
  have fits : (view.elements s).size = buffer.size := (lawful.cells s hs).size.symm.trans same.symm
  rw [lawful.copyInto s hs]
  exact (Flat.combineFits fits).trans (by rw [Flat.copied fits])

theorem refreshes {frame : Frame T} (same : frame.length = v.size s) :
    Frame.refresh v s frame = .ok () ⟨view.elements s⟩ := by
  simp only [Frame.refresh, wrap, copies opened grounded hs same]

variable [One T] [Neg T] [Magnitude T]

theorem restores (ops : List (Operation T)) :
    ∃ s', Frame.restore ⟨view.elements s⟩ v (runAll v ops s).2 = .ok () s' ∧ s'.find? = s.find? := by
  obtain ⟨lawful, -⟩ := layoutLawful opened grounded
  have kept := keepsShapes opened grounded ops hs
  have fits := (lawful.sized _ kept).trans (lawful.sized s hs).symm
  obtain ⟨s', run, kept', back⟩ := tracksRun (lawful.assign _) kept (Flat.assignFits fits)
  refine ⟨s', run, Registry.decided (kept'.trans hs.symm) fun p => ?_⟩
  by_cases shown : p ∈ view.places r
  · exact shownSame kept' hs back shown
  · have leaves := leavesOtherPlaces opened grounded shown
    have still := (leaves.assign (view.elements s) _ kept).2
    rw [run] at still
    exact still.trans (Operation.runAllLeaves leaves ops hs).2

end Snapshots

structure Transferred (source target : Layout (Registry T) T) (names : List String)
    (s s' : Registry T) : Prop where
  get : ∀ i, (target.cells s').get i = (source.cells s).get i
  toArray : target.toArray s' = source.toArray s
  getSource : ∀ i, (source.cells s').get i = (source.cells s).get i
  toArraySource : source.toArray s' = source.toArray s
  others : ∀ name ∉ names, s'.find? name = s.find? name

section Routes

variable [Zero T] [Add T] [Mul T] {r s : Registry T} {source target : View}
  {v w : Layout (Registry T) T} (opened : Opened r source v) (opened' : Opened r target w)
  (grounded : source.Grounded r) (grounded' : target.Grounded r)
  (apart : ∀ name ∈ source.names, name ∉ target.names) (hs : s.HasShapes r.shapes)
  (same : w.size s = v.size s)

include opened opened' grounded grounded' apart hs same

/- Every route is a change through the target that amounts to writing over its elements. -/
theorem receives {u : Update (Registry T) Unit}
    (writes : Tracks (HasShapes r.shapes) target.elements u (Flat.assign (source.elements s)))
    (leaves : ∀ name ∉ target.names, Leaves (HasShapes r.shapes) (·.find? name) u) :
    ∃ s', u s = .ok () s' ∧ Transferred v w target.names s s' := by
  obtain ⟨lawful, -⟩ := layoutLawful opened grounded
  obtain ⟨lawful', -⟩ := layoutLawful opened' grounded'
  have fits : (target.elements s).size = (source.elements s).size :=
    (lawful'.cells s hs).size.symm.trans (same.trans (lawful.cells s hs).size)
  obtain ⟨s', run, hs', moved⟩ := tracksRun writes hs (Flat.assignFits fits)
  have others : ∀ name ∉ target.names, s'.find? name = s.find? name := by
    intro name other
    have left := (leaves name other s hs).2
    rwa [run] at left
  have still : source.elements s' = source.elements s := by
    refine elementsKept hs' hs fun p shown => ?_
    simp only [cell, Registry.valuesOf, Registry.base, others p.1 (apart p.1 (namedPlaces shown))]
  refine ⟨s', run, fun i => ?_, ?_, fun i => ?_, ?_, others⟩
  · rw [(lawful'.cells s' hs').get, (lawful.cells s hs).get, moved]
  · rw [lawful'.toArray s' hs', lawful.toArray s hs, moved]
  · rw [(lawful.cells s' hs').get, (lawful.cells s hs).get, still]
  · rw [lawful.toArray s' hs', lawful.toArray s hs, still]

theorem receivesBuffer :
    ∃ s', w.assign (source.elements s) s = .ok () s' ∧ Transferred v w target.names s s' := by
  obtain ⟨lawful', -⟩ := layoutLawful opened' grounded'
  exact receives opened opened' grounded grounded' apart hs same (lawful'.assign _)
    fun _ other => (leavesOtherNames opened' grounded' other).assign _

theorem receivesVector :
    ∃ s', w.setFrom (v.cells s) s = .ok () s' ∧ Transferred v w target.names s s' := by
  obtain ⟨lawful, -⟩ := layoutLawful opened grounded
  obtain ⟨lawful', -⟩ := layoutLawful opened' grounded'
  exact receives opened opened' grounded grounded' apart hs same
    (lawful'.reaches.setFrom (lawful.cells s hs).reads)
    fun _ other => (leavesOtherNames opened' grounded' other).setFrom _

end Routes

variable [Zero T] [One T] [Add T] [Mul T] [Neg T] [Magnitude T]

theorem transfersExactly {r s : Registry T} {view : View} {v : Layout (Registry T) T}
    (opened : openIn r view = .ok v) (grounded : view.Grounded r) (hs : s.HasShapes r.shapes) :
    (∀ ops : List (Operation T), ∃ frame s', Frame.capture v s = .ok frame ∧
        frame.restore v (runAll v ops s).2 = .ok () s' ∧ s'.find? = s.find?) ∧
      (∀ frame : Frame T, frame.length = v.size s → ∃ fresh,
        Frame.refresh v s frame = .ok () fresh ∧ Frame.capture v s = .ok fresh) ∧
      ∀ target w, openIn r target = .ok w → target.Grounded r →
        (∀ name ∈ view.names, name ∉ target.names) → w.size s = v.size s →
        (∃ s', w.setFrom (v.cells s) s = .ok () s' ∧ Transferred v w target.names s s') ∧
        (∃ frame s', Frame.capture v s = .ok frame ∧ frame.restore w s = .ok () s' ∧
          Transferred v w target.names s s') ∧
        ∀ buffer : Array T, buffer.size = v.size s → ∃ filled s',
          v.copyInto s buffer = .ok () filled ∧ w.assign filled s = .ok () s' ∧
          Transferred v w target.names s s' := by
  have opened := openedSource opened
  have captured := captures opened grounded hs
  refine ⟨fun ops => ?_, fun frame length => ?_, fun target w opened' grounded' apart same => ?_⟩
  · obtain ⟨s', run, back⟩ := restores opened grounded hs ops
    exact ⟨_, s', captured, run, back⟩
  · exact ⟨_, refreshes opened grounded hs length, captured⟩
  · have opened' := openedSource opened'
    obtain ⟨s', run, received⟩ := receivesBuffer opened opened' grounded grounded' apart hs same
    refine ⟨receivesVector opened opened' grounded grounded' apart hs same,
      ⟨_, s', captured, run, received⟩, fun buffer length => ?_⟩
    exact ⟨_, s', copies opened grounded hs length, run, received⟩

def columnJoined : View := .blocks [.base "right"]

def columnOpened : Layout (Registry Float) Float := Blocks.layout ⟨[Registry.layout "right"], [0, 2]⟩

theorem transfersExactlySlice :
    let left : Layout (Registry Float) Float := Registry.layout "left"
    (∃ frame s', Frame.capture left twoBases = .ok frame ∧
        frame.restore left (runAll left [.clear, .set 2 1] twoBases).2 = .ok () s' ∧
        s'.find? = twoBases.find?) ∧
      ∃ s', columnOpened.setFrom (left.cells twoBases) twoBases = .ok () s' ∧
        columnOpened.toArray s' = .ok #[1, 2] ∧ left.toArray s' = .ok #[1, 2] := by
  have opensLeft : openIn twoBases (.base "left") = .ok (Registry.layout "left") := rfl
  have groundedLeft : (View.base "left").Grounded twoBases :=
    ⟨fun name member => groundedTail.bases name (List.mem_append_left _ member), by decide⟩
  have groundedColumn : columnJoined.Grounded twoBases :=
    ⟨fun name member => groundedTail.bases name (List.mem_append_right _ member), by decide⟩
  obtain ⟨undone, -, transferred⟩ := transfersExactly opensLeft groundedLeft rfl
  obtain ⟨⟨s', run, received⟩, -⟩ :=
    transferred columnJoined columnOpened rfl groundedColumn (by decide) rfl
  exact ⟨undone _, s', run, received.toArray, received.toArraySource⟩

end SignalVector.View
