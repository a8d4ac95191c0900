import Mathlib.Data.List.Induction
import SignalVector.Proofs.Reading

/-! A vector inside a state is lawful if, while an invariant of the state holds, it shows an array
of elements and changes that array like the vector that is nothing but its elements. A lawful access
makes every operation that follows from access lawful. -/
namespace SignalVector

open Update

variable {σ T : Type}

structure Access.Lawful (a : Access σ T) (inv : σ → Prop) (size : Nat) (elements : σ → Array T) :
    Prop where
  sized : ∀ s, inv s → (elements s).size = size
  cells : ∀ s, inv s → (a.cells s).Holds (elements s)
  modify : ∀ index f, Tracks inv elements (a.modify index f) (Flat.modify index f)
  slots : ∀ s, inv s → ∀ slots, a.slots s = some slots → slots.values.toArray = elements s ∧
    ∀ values, inv (slots.put values) ∧ elements (slots.put values) = values.toArray

/- The same with nothing known outside the size. -/
structure Access.Reaches (a : Access σ T) (inv : σ → Prop) (size : Nat) (elements : σ → Array T) :
    Prop where
  sized : ∀ s, inv s → (elements s).size = size
  reads : ∀ s, inv s → (a.cells s).Reads (elements s)
  modifies : ∀ index < size, ∀ f, Tracks inv elements (a.modify index f) (Flat.modify index f)
  slots : ∀ s, inv s → ∀ slots, a.slots s = some slots → slots.values.toArray = elements s ∧
    ∀ values, inv (slots.put values) ∧ elements (slots.put values) = values.toArray

theorem Access.Lawful.reaches {a : Access σ T} {inv : σ → Prop} {size : Nat}
    {elements : σ → Array T} (h : a.Lawful inv size elements) : a.Reaches inv size elements where
  sized := h.sized
  reads s hs := (h.cells s hs).reads
  modifies index _ := h.modify index
  slots := h.slots

theorem Access.Lawful.setTracks {a : Access σ T} {inv : σ → Prop} {size : Nat}
    {elements : σ → Array T} (h : a.Lawful inv size elements) (index : Nat) (x : T) :
    Tracks inv elements (a.set index x) (Flat.modify index fun _ => x) := h.modify index _

structure Layout.Bulk [Zero T] [Add T] [Mul T] (v : Layout σ T) (inv : σ → Prop) (size : Nat)
    (elements : σ → Array T) : Prop where
  toArray : ∀ s, inv s → v.toArray s = Flat.layout.toArray (elements s)
  copyInto : ∀ s, inv s → v.copyInto s = Flat.layout.copyInto (elements s)
  scaleAndAddInto : ∀ scale s, inv s →
    v.scaleAndAddInto scale s = Flat.layout.scaleAndAddInto scale (elements s)
  assign : ∀ values, Tracks inv elements (v.assign values) (Flat.layout.assign values)
  clear : Tracks inv elements v.clear Flat.layout.clear
  accumulate : ∀ operands, operands.size = size → (∀ t ∈ operands.terms, t.2.Readable) →
    Tracks inv elements (v.accumulate operands) (Flat.layout.accumulate operands)

structure Layout.Lawful [Zero T] [Add T] [Mul T] (v : Layout σ T) (inv : σ → Prop) (size : Nat)
    (elements : σ → Array T) : Prop
    extends Access.Lawful v.toAccess inv size elements, Layout.Bulk v inv size elements

structure Layout.Reaches [Zero T] [Add T] [Mul T] (v : Layout σ T) (inv : σ → Prop) (size : Nat)
    (elements : σ → Array T) : Prop
    extends Access.Reaches v.toAccess inv size elements, Layout.Bulk v inv size elements

theorem Layout.Lawful.reaches [Zero T] [Add T] [Mul T] {v : Layout σ T} {inv : σ → Prop}
    {size : Nat} {elements : σ → Array T} (h : v.Lawful inv size elements) :
    v.Reaches inv size elements where
  toReaches := h.toLawful.reaches
  toBulk := h.toBulk

theorem Layout.Lawful.sizeAt [Zero T] [Add T] [Mul T] {v : Layout σ T} {inv : σ → Prop} {size : Nat}
    {elements : σ → Array T} (h : v.Lawful inv size elements) {s : σ} (hs : inv s) :
    v.size s = size :=
  (h.cells s hs).size.trans (h.sized s hs)

section Checked

theorem Access.assignMisfit (a : Access σ T) {s : σ} {size : Nat} {values : Array T}
    (sized : (a.cells s).size = size) (other : size ≠ values.size) :
    a.assign values s = .error (.refused (.sizeMismatch size values.size)) s := by
  simp only [Access.assign, getBind, sized, checkSizeOther other, errorBind]

variable {v : Layout σ T} {s : σ} {size : Nat} {terms : List (T × Cells T)}

theorem Layout.setFromMisfit {source : Cells T} (sized : v.size s = size)
    (other : size ≠ source.size) :
    v.setFrom source s = .error (.refused (.sizeMismatch size source.size)) s := by
  simp only [Layout.setFrom, getBind, sized, checkSizeOther other, errorBind]

theorem Layout.addScaledFits (sized : v.size s = size) (fits : ∀ t ∈ terms, t.2.size = size) :
    v.addScaledAll terms s = v.accumulate ⟨size, terms, fits⟩ s := by
  simp only [addScaledAll, getBind, sized, Operands.checkFits fits, okBind]

theorem Layout.addScaledMisfit (sized : v.size s = size) {t : T × Cells T}
    (found : terms.find? (fun t => t.2.size ≠ size) = some t) :
    v.addScaledAll terms s = .error (.refused (.sizeMismatch size t.2.size)) s := by
  simp only [addScaledAll, getBind, sized, Operands.checkMisfit found, errorBind]

end Checked

namespace Flat

def swept (g : Nat → T → T) (k : Nat) (xs : Array T) : Array T :=
  xs.mapIdx fun i x => if i < k then g i x else x

theorem sweptNone (g : Nat → T → T) (xs : Array T) : swept g 0 xs = xs := by
  apply Array.ext <;> simp [swept]

theorem sweptNext (g : Nat → T → T) (k : Nat) (xs : Array T) :
    (swept g k xs).modify k (g k) = swept g (k + 1) xs := by
  apply Array.ext
  · simp [swept]
  · intro i _ _
    simp only [swept, Array.getElem_modify, Array.getElem_mapIdx]
    rcases Nat.lt_trichotomy i k with before | rfl | behind
    · simp [before, Nat.ne_of_gt before, Nat.lt_succ_of_lt before]
    · simp
    · have later : ¬ i < k + 1 := by omega
      simp [Nat.ne_of_lt behind, Nat.lt_asymm behind, later]

theorem sweptAll (g : Nat → T → T) (xs : Array T) : swept g xs.size xs = xs.mapIdx g := by
  apply Array.ext
  · simp [swept]
  · intro i inside _
    simp only [swept, Array.size_mapIdx] at inside
    simp [swept, inside]

/- Bulk changes of the default bodies go over the indices in order; what has been visited is final. -/
theorem sweep {u : Nat → Update (Array T) Unit} {g : Nat → T → T} {n : Nat}
    (step : ∀ i (xs : Array T), i < n → xs.size = n → u i xs = .ok () (xs.modify i (g i)))
    {xs : Array T} (full : xs.size = n) :
    (List.range n).forM u xs = .ok () (xs.mapIdx g) := by
  have upTo : ∀ k ≤ n, (List.range k).forM u xs = .ok () (swept g k xs) := by
    intro k
    induction k with
    | zero => exact fun _ => congrArg (EStateM.Result.ok ()) (sweptNone g xs).symm
    | succ k ih =>
      intro within
      have next := step k (swept g k xs) within (by simpa [swept] using full)
      rw [sweptNext] at next
      rw [List.range_succ, forMAppend _ _ (ih (Nat.le_of_succ_le within))]
      exact forMCons [] next
  rw [upTo n (Nat.le_refl n), ← full, sweptAll]

theorem modifyBehind (ys : List T) (x : T) (rest : List T) (f : T → T) :
    (ys ++ x :: rest).modify ys.length f = ys ++ f x :: rest := by
  induction ys with
  | nil => rfl
  | cons y ys ih => simp [ih]

theorem overwriteInTurn (ys : List T) {xs : Array T} (fits : ys.length ≤ xs.size) :
    (ys.zipIdx.forM fun (x, i) => modify i fun _ => x : Update (Array T) Unit) xs =
      .ok () (ys ++ xs.toList.drop ys.length).toArray := by
  induction ys using List.reverseRecOn with
  | nil => simp; rfl
  | append_singleton ys y ih =>
    rw [List.length_append, List.length_singleton] at fits
    rw [List.zipIdx_append, forMAppend _ _ (ih (Nat.le_of_succ_le fits))]
    change (modify (0 + ys.length) (fun _ => y) >>= fun _ => pure ()) _ = _
    have here : 0 + ys.length < (ys ++ xs.toList.drop ys.length).toArray.size := by simp; omega
    simp only [bind, EStateM.bind, modify, if_pos here]
    have split : xs.toList.drop ys.length = xs[ys.length] :: xs.toList.drop (ys.length + 1) :=
      List.drop_eq_getElem_cons (by simpa using Nat.lt_of_succ_le fits)
    have next : (ys ++ xs.toList.drop ys.length).toArray.modify (0 + ys.length) (fun _ => y) =
        (ys ++ [y] ++ xs.toList.drop (ys ++ [y]).length).toArray := by
      simp [split, modifyBehind]
    rw [next]
    rfl

end Flat

theorem accumulateInTurn [Zero T] [Add T] [Mul T] {inv : σ → Prop} {size : Nat}
    {elements : σ → Array T} (sized : ∀ s, inv s → (elements s).size = size)
    {operands : Operands T} (same : operands.size = size)
    (readable : ∀ t ∈ operands.terms, t.2.Readable) {add : Nat → T → Update σ Unit}
    (step : ∀ i < size, ∀ sum, Tracks inv elements (add i sum) (Flat.modify i (· + sum))) :
    Tracks inv elements
      ((List.range size).forM fun i => do let sum ← liftM (operands.sumAt i); add i sum)
      (Flat.accumulate operands) := by
  intro s hs
  have each : ∀ i ∈ List.range size, Tracks inv elements
      (do let sum ← liftM (operands.sumAt i); add i sum)
      (Flat.modify i (· + sumOfTerms operands.terms i)) := by
    intro i member s hs
    have inside : i < size := List.mem_range.mp member
    refine tracksCongr ?_ rfl (step i inside (sumOfTerms operands.terms i) s hs)
    rw [Operands.sumAtReadable readable (same.symm ▸ inside), okBind]
  refine tracksCongr rfl ?_ (tracksForM _ each s hs)
  rw [Flat.sweep (g := fun i x => x + sumOfTerms operands.terms i) _ (sized s hs)]
  · rfl
  · intro i xs inside full
    exact if_pos (full.symm ▸ inside)

namespace Access.Reaches

variable {a : Access σ T} {inv : σ → Prop} {size : Nat} {elements : σ → Array T}

theorem sizeAt (h : a.Reaches inv size elements) {s : σ} (hs : inv s) : (a.cells s).size = size :=
  (h.reads s hs).size.trans (h.sized s hs)

theorem setTracks (h : a.Reaches inv size elements) {index : Nat} (inside : index < size) (x : T) :
    Tracks inv elements (a.set index x) (Flat.modify index fun _ => x) := h.modifies index inside _

theorem assignTracks (h : a.Reaches inv size elements) (values : Array T) :
    Tracks inv elements (a.assign values) (Flat.assign values) := by
  intro s hs
  have sized := h.sized s hs
  by_cases same : size = values.size
  · have flat := Flat.assignFits (sized.trans same)
    cases slice : a.slots s with
    | some slots =>
      obtain ⟨shown, put⟩ := h.slots s hs slots slice
      have fits : values.size = slots.length := by
        rw [← same, ← sized, ← shown, Vector.size_toArray]
      obtain ⟨kept, written⟩ := put ⟨values, fits⟩
      refine tracksOk ?_ (flat.trans (by rw [written])) kept
      simp only [Access.assign, getBind, h.sizeAt hs, checkSizeSame same, okBind, slice,
        Slots.overwrite, dif_pos fits]
      rfl
    | none =>
      have loop := tracksForM (u := fun (x, i) => a.set i x)
        (f := fun (x, i) => Flat.modify i fun _ => x) values.toList.zipIdx fun (x, i) member => by
          have inside : i < values.toList.length := by
            simpa using List.snd_lt_of_mem_zipIdx member
          exact h.setTracks (same.symm ▸ inside) x
      refine tracksCongr ?_ ?_ (loop s hs)
      · simp only [Access.assign, getBind, h.sizeAt hs, checkSizeSame same, okBind, slice]
      · rw [flat, Flat.overwriteInTurn values.toList (by simp [sized, same])]
        simp [← same, ← sized, List.drop_of_length_le]
  · refine tracksError ?_ (Flat.assignMisfit (sized.symm ▸ same)) hs
    rw [a.assignMisfit (h.sizeAt hs) same, sized]

theorem clearTracks [Zero T] (h : a.Reaches inv size elements) :
    Tracks inv elements a.clear Flat.clear := by
  intro s hs
  cases slice : a.slots s with
  | some slots =>
    obtain ⟨shown, put⟩ := h.slots s hs slots slice
    obtain ⟨kept, written⟩ := put (Vector.replicate slots.length 0)
    refine tracksOk (a := ()) ?_ ?_ kept
    · simp only [Access.clear, getBind, slice]
      rfl
    · rw [written, ← Vector.size_toArray slots.values, shown]
      rfl
  | none =>
    have loop := tracksForM (u := fun i => (a.set i 0).tolerant)
      (f := fun i => (Flat.modify i fun _ => 0).tolerant) (List.range size)
      fun i member => tracksTolerant (h.setTracks (List.mem_range.mp member) 0)
    refine tracksCongr ?_ ?_ (loop s hs)
    · simp only [Access.clear, getBind, h.sizeAt hs, slice]
    · have zeros : (elements s).mapIdx (fun _ _ => (0 : T)) = Array.replicate (elements s).size 0 := by
        apply Array.ext <;> simp
      rw [Flat.sweep (g := fun _ _ => 0) _ (h.sized s hs), zeros]
      · rfl
      · intro i xs inside full
        simp only [tolerant, Flat.modify, if_pos (full.symm ▸ inside : i < xs.size)]

theorem accumulateTracks [Zero T] [Add T] [Mul T] (h : a.Reaches inv size elements)
    {operands : Operands T} (same : operands.size = size)
    (readable : ∀ t ∈ operands.terms, t.2.Readable) :
    Tracks inv elements (a.accumulate operands) (Flat.accumulate operands) := by
  intro s hs
  have loop := accumulateInTurn h.sized same readable fun i inside sum =>
    h.modifies i inside (· + sum)
  refine tracksCongr ?_ rfl (loop s hs)
  simp only [Access.accumulate, getBind, h.sizeAt hs]

theorem bulk [Zero T] [Add T] [Mul T] (h : a.Reaches inv size elements)
    (ends : ∀ s, inv s → (a.cells s).Ends) (small : size < Index.limit) :
    a.toLayout.Bulk inv size elements where
  toArray s hs := (h.reads s hs).toArray (ends s hs) (h.sized s hs ▸ small)
  copyInto s hs := (h.reads s hs).combineInto _ (h.sized s hs ▸ small)
  scaleAndAddInto _ s hs := (h.reads s hs).combineInto _ (h.sized s hs ▸ small)
  assign := h.assignTracks
  clear := h.clearTracks
  accumulate _ same readable := h.accumulateTracks same readable

theorem toLayout [Zero T] [Add T] [Mul T] (h : a.Reaches inv size elements)
    (ends : ∀ s, inv s → (a.cells s).Ends) (small : size < Index.limit) :
    a.toLayout.Reaches inv size elements where
  toReaches := h
  toBulk := h.bulk ends small

end Access.Reaches

theorem Access.Lawful.toLayout [Zero T] [Add T] [Mul T] {a : Access σ T} {inv : σ → Prop}
    {size : Nat} {elements : σ → Array T} (h : a.Lawful inv size elements)
    (small : size < Index.limit) : a.toLayout.Lawful inv size elements where
  toLawful := h
  toBulk := h.reaches.bulk (fun s hs => (h.cells s hs).ends) small

section Focus

variable {τ : Type} {inner : τ → Prop} {outer : σ → Prop} {elements : τ → Array T} {part : σ → τ}
  {store : τ → σ → σ} {hole : τ}

theorem tracksFocus {u : Update τ Unit} {f : Update (Array T) Unit}
    (h : Tracks inner elements u f) (enter : ∀ s, outer s → inner (part s))
    (leave : ∀ s t, outer s → inner t → outer (store t s) ∧ part (store t s) = t)
    (twice : ∀ s t, store t (store hole s) = store t s) :
    Tracks outer (elements ∘ part) (u.focus part store hole) f := by
  intro s hs
  obtain ⟨image, kept⟩ := h (part s) (enter s hs)
  simp only [wrap, focus, twice] at image ⊢
  cases run : u (part s) with
  | ok a t =>
    rw [run] at image kept
    obtain ⟨back, same⟩ := leave s t hs kept
    exact ⟨by simpa only [Function.comp_apply, same] using image, back⟩
  | error e t =>
    rw [run] at image kept
    obtain ⟨back, same⟩ := leave s t hs kept
    exact ⟨by simpa only [Function.comp_apply, same] using image, back⟩

theorem Layout.Lawful.focus [Zero T] [Add T] [Mul T] {v : Layout τ T} {size : Nat}
    (h : v.Lawful inner size elements) (enter : ∀ s, outer s → inner (part s))
    (leave : ∀ s t, outer s → inner t → outer (store t s) ∧ part (store t s) = t)
    (twice : ∀ s t, store t (store hole s) = store t s) :
    (v.focus part store hole).Lawful outer size (elements ∘ part) where
  sized s hs := h.sized _ (enter s hs)
  cells s hs := h.cells _ (enter s hs)
  modify index f := tracksFocus (h.modify index f) enter leave twice
  slots s hs slots found := by
    obtain ⟨inside, there, rfl⟩ := Option.map_eq_some_iff.mp found
    obtain ⟨shown, put⟩ := h.slots _ (enter s hs) inside there
    refine ⟨shown, fun values => ?_⟩
    obtain ⟨kept, written⟩ := put values
    obtain ⟨back, same⟩ := leave s _ hs kept
    exact ⟨back, (congrArg elements same).trans written⟩
  toArray s hs := h.toArray _ (enter s hs)
  copyInto s hs := h.copyInto _ (enter s hs)
  scaleAndAddInto scale s hs := h.scaleAndAddInto scale _ (enter s hs)
  assign values := tracksFocus (h.assign values) enter leave twice
  clear := tracksFocus h.clear enter leave twice
  accumulate operands same readable :=
    tracksFocus (h.accumulate operands same readable) enter leave twice

end Focus

end SignalVector
