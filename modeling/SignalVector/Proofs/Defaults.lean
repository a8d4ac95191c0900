import SignalVector.Proofs.Runs

/-! The operations that a layout does not supply itself. From a constant size, an element to read and
to change at each index below it, and none to read at any other, they are the list functions that
their names denote; and what a layout puts in the place of one of them does the same. -/
namespace SignalVector

open Update

variable {σ T : Type}

def Cells.contents [Zero T] (c : Cells T) : Array T := Array.ofFn fun i : Fin c.size => c.item i

structure Access.Contract (a : Access σ T) (inv : σ → Prop) (size : Nat) : Prop where
  sized : ∀ s, inv s → (a.cells s).size = size
  reads : ∀ s, inv s → ∀ i < size, ∃ x, (a.cells s).get i = .ok x
  refuses : ∀ s, inv s → ∀ i, size ≤ i → ∃ cause, (a.cells s).get i = .error (.refused cause)
  changes : ∀ s, inv s → ∀ i < size, ∀ f, ∃ s', a.modify i f s = .ok () s' ∧ inv s' ∧
    (a.cells s').get i = f <$> (a.cells s).get i ∧
    ∀ j < size, j ≠ i → (a.cells s').get j = (a.cells s).get j
  slice : ∀ s, inv s → ∀ values, (a.cells s).contiguous = some values → values.size = size ∧
    ∀ i (inside : i < values.size), (a.cells s).get i = .ok values[i]
  slots : ∀ s, inv s → ∀ slots, a.slots s = some slots → slots.length = size ∧
    (∀ i (inside : i < slots.length), (a.cells s).get i = .ok slots.values[i]) ∧
    ∀ values, inv (slots.put values) ∧
      ∀ i (inside : i < slots.length), (a.cells (slots.put values)).get i = .ok values[i]

theorem Access.Contract.ends {a : Access σ T} {inv : σ → Prop} {size : Nat} (h : a.Contract inv size)
    (s : σ) (hs : inv s) : (a.cells s).Ends :=
  h.refuses s hs _ (Nat.le_of_eq (h.sized s hs).symm)

def Update.Writes (inv : σ → Prop) (elements : σ → Array T) (size length : Nat) (xs : Array T)
    (u : Update σ Unit) : Prop :=
  ∀ s, inv s →
    (size = length → ∃ s', u s = .ok () s' ∧ inv s' ∧ elements s' = xs) ∧
    (size ≠ length → u s = .error (.refused (.sizeMismatch size length)) s)

structure Layout.Denotes [Zero T] [Add T] [Mul T] [Magnitude T] (v : Layout σ T) (inv : σ → Prop)
    (size : Nat) (elements : σ → Array T) : Prop where
  toArray : ∀ s, inv s → v.toArray s = .ok (elements s)
  normInf : ∀ s, inv s → v.normInf s = .ok (Cells.largest (elements s).toList)
  copyInto : ∀ s, inv s → ∀ target, v.copyInto s target =
    if size = target.size then .ok () (elements s)
    else .error (.refused (.sizeMismatch size target.size)) target
  scaleAndAddInto : ∀ scale s, inv s → ∀ target, v.scaleAndAddInto scale s target =
    if size = target.size then
      .ok () (Array.zipWith (fun old x => old + scale * x) target (elements s))
    else .error (.refused (.sizeMismatch size target.size)) target
  clear : ∀ s, inv s → ∃ s', v.clear s = .ok () s' ∧ inv s' ∧ elements s' = Array.replicate size 0
  assign : ∀ values, Writes inv elements size values.size values (v.assign values)
  setFrom : ∀ source xs, source.Reads xs → Writes inv elements size xs.size xs (v.setFrom source)
  addScaledAll : ∀ terms, (∀ t ∈ terms, t.2.Readable) → ∀ s, inv s →
    ((∀ t ∈ terms, t.2.size = size) → ∃ s', v.addScaledAll terms s = .ok () s' ∧ inv s' ∧
      elements s' = (elements s).mapIdx fun i x => x + sumOfTerms terms i) ∧
    ∀ t, terms.find? (fun t => t.2.size ≠ size) = some t →
      v.addScaledAll terms s = .error (.refused (.sizeMismatch size t.2.size)) s

section Contract

variable [Zero T]

theorem Cells.contentsOf {c : Cells T} {xs : Array T} (size : c.size = xs.size)
    (get : ∀ i (inside : i < xs.size), c.get i = .ok xs[i]) : c.contents = xs := by
  apply Array.ext
  · simp [Cells.contents, size]
  · intro i _ inside
    simp [Cells.contents, Cells.item, get i inside]

variable {a : Access σ T} {inv : σ → Prop} {size : Nat}

namespace Access.Contract

theorem sizeContents (h : a.Contract inv size) {s : σ} (hs : inv s) :
    (a.cells s).contents.size = size := by
  simp [Cells.contents, h.sized s hs]

theorem getContents (h : a.Contract inv size) {s : σ} (hs : inv s) {i : Nat}
    (inside : i < (a.cells s).contents.size) :
    (a.cells s).get i = .ok (a.cells s).contents[i] := by
  obtain ⟨x, read⟩ := h.reads s hs i (h.sizeContents hs ▸ inside)
  simp [Cells.contents, Cells.item, read]

theorem modifies (h : a.Contract inv size) {index : Nat} (inside : index < size) (f : T → T) :
    Tracks inv (fun s => (a.cells s).contents) (a.modify index f) (Flat.modify index f) := by
  intro s hs
  obtain ⟨s', run, kept, here, elsewhere⟩ := h.changes s hs index inside f
  have there : index < (a.cells s).contents.size := (h.sizeContents hs).symm ▸ inside
  have changed : (a.cells s').contents = (a.cells s).contents.modify index f := by
    refine Cells.contentsOf ?_ fun i within => ?_
    · rw [h.sized s' kept, Array.size_modify, h.sizeContents hs]
    · rw [Array.size_modify] at within
      rw [Array.getElem_modify]
      by_cases same : index = i
      · subst same
        rw [here, h.getContents hs there, if_pos rfl]
        rfl
      · rw [elsewhere i (h.sizeContents hs ▸ within) (Ne.symm same), h.getContents hs within,
          if_neg same]
  exact tracksOk run ((Flat.modifyInside f there).trans (by rw [changed])) kept

theorem reaches (h : a.Contract inv size) :
    a.Reaches inv size fun s => (a.cells s).contents where
  sized _ := h.sizeContents
  reads s hs :=
    { size := (h.sized s hs).trans (h.sizeContents hs).symm
      get := fun _ => h.getContents hs
      contiguous := fun values slice => by
        obtain ⟨full, get⟩ := h.slice s hs values slice
        exact (Cells.contentsOf ((h.sized s hs).trans full.symm) get).symm }
  modifies _ := h.modifies
  slots s hs slots found := by
    obtain ⟨full, shown, put⟩ := h.slots s hs slots found
    refine ⟨(Cells.contentsOf ?_ fun i inside => ?_).symm, fun values => ⟨(put values).1,
      Cells.contentsOf ?_ fun i inside => ?_⟩⟩
    · rw [h.sized s hs, Vector.size_toArray, full]
    · exact shown i (by simpa using inside)
    · rw [h.sized _ (put values).1, Vector.size_toArray, full]
    · exact (put values).2 i (by simpa using inside)

end Access.Contract

omit [Zero T] in
theorem Access.Lawful.contract {elements : σ → Array T} (h : a.Lawful inv size elements) :
    a.Contract inv size where
  sized s hs := h.reaches.sizeAt hs
  reads s hs i inside := ⟨_, (h.reaches.reads s hs).get i ((h.sized s hs).symm ▸ inside)⟩
  refuses s hs i outside :=
    ⟨_, ((h.cells s hs).get i).trans (Cells.readSliceOutside ((h.sized s hs).symm ▸ outside))⟩
  changes s hs i inside f := by
    have there : i < (elements s).size := (h.sized s hs).symm ▸ inside
    obtain ⟨s', run, kept, changed⟩ := tracksRun (h.modify i f) hs (Flat.modifyInside f there)
    refine ⟨s', run, kept, ?_, fun j within other => ?_⟩
    · rw [(h.cells s hs).get, (h.cells s' kept).get, changed, Cells.readSliceInside there,
        Cells.readSliceInside (by simpa using there)]
      simp [Array.getElem_modify]
    · rw [(h.cells s hs).get, (h.cells s' kept).get, changed]
      simp [Cells.readSlice, Array.getElem?_modify, Ne.symm other]
  slice s hs values found := by
    cases (h.cells s hs).contiguous values found
    exact ⟨h.sized s hs, (h.reaches.reads s hs).get⟩
  slots s hs slots found := by
    obtain ⟨shown, put⟩ := h.slots s hs slots found
    have sized : slots.length = size := by
      rw [← h.sized s hs, ← shown, Vector.size_toArray]
    refine ⟨sized, fun i inside => ?_, fun values => ⟨(put values).1, fun i inside => ?_⟩⟩
    · have there : i < (elements s).size := by rw [h.sized s hs, ← sized]; exact inside
      rw [(h.reaches.reads s hs).get i there]
      simp [← shown]
    · obtain ⟨kept, written⟩ := put values
      have there : i < (elements (slots.put values)).size := by
        rw [h.sized _ kept, ← sized]
        exact inside
      rw [(h.reaches.reads _ kept).get i there]
      simp [written]

end Contract

section Default

variable {a : Access σ T} {inv : σ → Prop} {size : Nat} {elements : σ → Array T}

theorem Access.Reaches.assigns (h : a.Reaches inv size elements) (values : Array T) :
    Writes inv elements size values.size values (a.assign values) := by
  refine fun s hs => ⟨fun same => ?_, fun other => ?_⟩
  · exact tracksRun (h.assignTracks values) hs (Flat.assignFits ((h.sized s hs).trans same))
  · exact a.assignMisfit (h.sizeAt hs) other

variable [Zero T] [Add T] [Mul T]

theorem Access.Reaches.setsFrom (h : a.Reaches inv size elements)
    (ends : ∀ s, inv s → (a.cells s).Ends) (small : size < Index.limit) {source : Cells T}
    {xs : Array T} (reads : source.Reads xs) :
    Writes inv elements size xs.size xs (a.toLayout.setFrom source) := by
  refine fun s hs => ⟨fun same => ?_, fun other => ?_⟩
  · exact tracksRun ((h.toLayout ends small).setFrom reads) hs
      (Flat.assignFits ((h.sized s hs).trans same))
  · rw [← reads.size] at other ⊢
    exact Layout.setFromMisfit (v := a.toLayout) (h.sizeAt hs) other

theorem Access.Reaches.denotes [Magnitude T] (h : a.Reaches inv size elements)
    (ends : ∀ s, inv s → (a.cells s).Ends) (small : size < Index.limit) :
    a.toLayout.Denotes inv size elements where
  toArray := (h.bulk ends small).toArray
  normInf s hs := (h.reads s hs).normInf (ends s hs) (h.sized s hs ▸ small)
  copyInto s hs target := by
    rw [(h.bulk ends small).copyInto s hs, ← h.sized s hs]
    by_cases same : (elements s).size = target.size
    · rw [if_pos same]
      exact (Flat.combineFits same).trans (by rw [Flat.copied same])
    · rw [if_neg same]
      exact Flat.combineMisfit same
  scaleAndAddInto scale s hs target := by
    rw [(h.bulk ends small).scaleAndAddInto scale s hs, ← h.sized s hs]
    rfl
  clear s hs := tracksRun h.clearTracks hs (by rw [Flat.clear, h.sized s hs])
  assign := h.assigns
  setFrom _ _ := h.setsFrom ends small
  addScaledAll terms readable s hs := by
    have sized : a.toLayout.size s = size := h.sizeAt hs
    refine ⟨fun fits => ?_, fun t found => ?_⟩
    · have added := (h.bulk ends small).accumulate ⟨size, terms, fits⟩ rfl readable
      obtain ⟨s', run, kept, changed⟩ := tracksRun added hs rfl
      exact ⟨s', (Layout.addScaledFits sized fits).trans run, kept, changed⟩
    · exact Layout.addScaledMisfit sized found

end Default

end SignalVector
