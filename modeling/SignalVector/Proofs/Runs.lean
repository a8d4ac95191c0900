import SignalVector.Proofs.Lawful
import SignalVector.Proofs.Leaving

/-! Runs of operations through a lawful vector are runs on its elements: call by call the same
results, the same failures and the same buffers. Operands count only through the elements that they
show. -/
namespace SignalVector

open Update

variable {σ T β : Type}

section Sources

variable [Zero T] [Add T] [Mul T]

theorem Layout.Reaches.setFrom {v : Layout σ T} {inv : σ → Prop} {size : Nat}
    {elements : σ → Array T} (h : v.Reaches inv size elements) {source : Cells T} {xs : Array T}
    (reads : source.Reads xs) : Tracks inv elements (v.setFrom source) (Flat.assign xs) := by
  intro s hs
  have sized := h.sized s hs
  have here : v.size s = size := h.sizeAt hs
  by_cases same : size = xs.size
  · cases slice : source.contiguous with
    | some values =>
      cases reads.contiguous values slice
      refine tracksCongr ?_ rfl (h.assign xs s hs)
      simp only [Layout.setFrom, getBind, here, reads.size, checkSizeSame same, okBind, slice]
    | none =>
      have each : ∀ i ∈ List.range source.size, Tracks inv elements
          (do v.set i (← source.get i)) (Flat.modify i fun _ => source.item i) := by
        intro i member
        have inside : i < xs.size := reads.size ▸ List.mem_range.mp member
        rw [reads.item inside]
        intro s hs
        refine tracksCongr ?_ rfl (h.setTracks (same.symm ▸ inside) xs[i] s hs)
        rw [reads.get i inside, okBind]
      have full : (elements s).size = source.size := by rw [sized, reads.size, same]
      have swept := Flat.sweep (g := fun i _ => source.item i)
        (fun i xs inside full => Flat.modifyInside _ (full.symm ▸ inside)) full
      have written : (elements s).mapIdx (fun i _ => source.item i) = xs := by
        apply Array.ext
        · simp [full, reads.size]
        · intro i _ inside
          simp [reads.item inside]
      refine tracksCongr ?_ ?_ (tracksForM _ each s hs)
      · simp only [Layout.setFrom, getBind, here, reads.size, checkSizeSame same, okBind, slice]
      · rw [Flat.assignFits (sized.trans same), swept, written]
  · refine tracksError ?_ (Flat.assignMisfit (sized.symm ▸ same)) hs
    rw [Layout.setFromMisfit here (reads.size ▸ same), reads.size, sized]

theorem Flat.layoutReaches (size : Nat) :
    Flat.layout.Reaches (fun xs : Array T => xs.size = size) size id := by
  have itself : ∀ {u : Update (Array T) Unit},
      (∀ xs, (final (u xs)).size = xs.size) → Tracks (fun xs : Array T => xs.size = size) id u u :=
    fun {u} kept xs full => ⟨by rw [wrapId]; rfl, (kept xs).trans full⟩
  have modified : ∀ index f (xs : Array T), (final (Flat.modify index f xs)).size = xs.size := by
    intro index f xs
    simp only [Flat.modify]
    split <;> simp [final]
  exact {
    sized := fun _ full => full
    reads := fun xs _ => (Cells.holdsOfArray xs).reads
    modifies := fun index _ f => itself (modified index f)
    slots := fun _ _ _ found => by cases found
    toArray := fun _ _ => rfl
    copyInto := fun _ _ => rfl
    scaleAndAddInto := fun _ _ _ => rfl
    assign := fun values => itself fun xs => by
      simp only [Flat.layout, Flat.assign]
      split <;> simp_all [final]
    clear := itself fun xs => by simp [Flat.layout, Flat.clear, final]
    accumulate := fun operands _ _ => itself fun xs => by
      simp [Flat.layout, Flat.accumulate, final] }

theorem Flat.setFromReads {source : Cells T} {ys : Array T} (reads : source.Reads ys) :
    Flat.layout.setFrom source = Flat.assign ys := by
  funext xs
  have tracked := ((Flat.layoutReaches xs.size).setFrom reads xs rfl).1
  rwa [wrapId] at tracked

end Sources

namespace Layout.Lawful

variable [Zero T] [Add T] [Mul T] {v : Layout σ T} {inv : σ → Prop} {size : Nat}
  {elements : σ → Array T}

theorem setFrom (h : v.Lawful inv size elements) (source : Cells T) :
    Tracks inv elements (v.setFrom source) (Flat.layout.setFrom source) := by
  intro s hs
  have here : v.size s = size := h.sizeAt hs
  have flat : Flat.layout.size (elements s) = size := h.sized s hs
  have checked : Tracks inv elements (liftM (checkSize size source.size)) _ := tracksLift _
  simp only [Layout.setFrom]
  cases source.contiguous with
  | some values =>
    refine tracksCongr ?_ ?_ (tracksBind checked (fun _ => h.assign values) s hs)
    · simp only [getBind, here]
    · simp only [getBind, flat]
  | none =>
    have loop := tracksForM (List.range source.size) fun i _ =>
      tracksBind (tracksLift (source.get i)) fun x => h.setTracks i x
    refine tracksCongr ?_ ?_ (tracksBind checked (fun _ => loop) s hs)
    · simp only [getBind, here]
    · simp only [getBind, flat]
      rfl

theorem addScaledAll (h : v.Lawful inv size elements) {terms : List (T × Cells T)}
    (readable : ∀ t ∈ terms, t.2.Readable) :
    Tracks inv elements (v.addScaledAll terms) (Flat.layout.addScaledAll terms) := by
  intro s hs
  have here : v.size s = size := h.sizeAt hs
  have flat : Flat.layout.size (elements s) = size := h.sized s hs
  by_cases fits : ∀ t ∈ terms, t.2.size = size
  · exact tracksCongr (Layout.addScaledFits here fits) (Layout.addScaledFits flat fits)
      (h.accumulate ⟨size, terms, fits⟩ rfl readable s hs)
  · obtain ⟨t, found⟩ := Operands.misfit fits
    exact tracksError (Layout.addScaledMisfit here found) (Layout.addScaledMisfit flat found) hs

theorem chain [One T] [Neg T] (h : v.Lawful inv size elements) {links : List (Link T)}
    (readable : ∀ link ∈ links, ∀ x ∈ link.vectors, x.Readable) :
    Tracks inv elements (v.chain links) (Flat.layout.chain links) :=
  tracksForM links fun link member => h.addScaledAll (Link.eachVector.mp (readable link member))

end Layout.Lawful

namespace Layout.Leaves

variable {v : Layout σ T} {inv : σ → Prop} {kept : σ → β}

theorem setFrom (h : v.Leaves inv kept) (source : Cells T) :
    Update.Leaves inv kept (v.setFrom source) := by
  refine leavesGet fun s hs => leavesLiftAt hs fun _ _ => ?_
  cases source.contiguous with
  | some values => exact h.assign values s hs
  | none =>
    exact leavesForM _ (fun i _ => leavesBind (leavesLift (source.get i)) fun x => h.modify i _) s hs

theorem addScaledAll (h : v.Leaves inv kept) (terms : List (T × Cells T)) :
    Update.Leaves inv kept (v.addScaledAll terms) :=
  leavesGet fun s hs => leavesLiftAt hs fun operands _ => h.accumulate operands s hs

theorem chain [One T] [Neg T] (h : v.Leaves inv kept) (links : List (Link T)) :
    Update.Leaves inv kept (v.chain links) :=
  leavesForM links fun link _ => h.addScaledAll link.terms

end Layout.Leaves

namespace Operation

def operands : Operation T → List (Cells T)
  | setFrom source => [source]
  | chain links => links.flatMap Link.vectors
  | _ => []

def Agree {α τ : Type} (inv : σ → Prop) (shown : σ → τ) (a : α × σ) (b : α × τ) : Prop :=
  a.1 = b.1 ∧ shown a.2 = b.2 ∧ inv a.2

section Lawful

variable {v : Layout σ T} {inv : σ → Prop} {size : Nat} {elements : σ → Array T}

theorem writingTracks {u : Update σ Unit} {f : Update (Array T) Unit} (h : Tracks inv elements u f)
    {s : σ} (hs : inv s) :
    Agree inv elements (writing u s : Outcome T × σ) (writing f (elements s)) := by
  obtain ⟨image, kept⟩ := h s hs
  simp only [wrap] at image
  simp only [writing, ← image]
  cases run : u s with
  | ok a s' => rw [run] at kept; exact ⟨rfl, rfl, kept⟩
  | error e s' => rw [run] at kept; exact ⟨rfl, rfl, kept⟩

theorem fillingAgrees {β : Type} (buffer : β → Option (Array T))
    (r : EStateM.Result Failure β Unit) {s : σ} (hs : inv s) :
    Agree inv elements (filling buffer r s) (filling buffer r (elements s)) := by
  cases r with
  | ok _ b => exact ⟨rfl, rfl, hs⟩
  | error e b => exact ⟨rfl, rfl, hs⟩

theorem readingAgrees {answer : Except Failure (Answer T)} {answer' : Except Failure (Answer T)}
    (same : answer = answer') {s : σ} (hs : inv s) :
    Agree inv elements (reading answer s) (reading answer' (elements s)) := by
  subst same
  exact ⟨rfl, rfl, hs⟩

variable [Zero T] [One T] [Add T] [Mul T] [Neg T] [Magnitude T]

theorem runAgrees (h : v.Lawful inv size elements) (small : size < Index.limit) (op : Operation T)
    (coherent : ∀ c ∈ op.operands, c.Coherent) {s : σ} (hs : inv s) :
    Agree inv elements (op.run v s) (op.run Flat.layout (elements s)) := by
  have word : (elements s).size < Index.limit := h.sized s hs ▸ small
  have held := h.cells s hs
  have flat := Cells.holdsOfArray (elements s)
  cases op with
  | get index => exact readingAgrees (congrArg _ (held.get index)) hs
  | set index value => exact writingTracks (h.modify index _) hs
  | setFrom source => exact writingTracks (h.setFrom source) hs
  | assign values => exact writingTracks (h.assign values) hs
  | clear => exact writingTracks h.clear hs
  | toArray => exact readingAgrees (congrArg _ (h.toArray s hs)) hs
  | copyInto target =>
    simp only [run, Layout.copyToTarget, h.copyInto s hs]
    exact fillingAgrees _ _ hs
  | scaleAndAddInto scale target =>
    simp only [run, Layout.scaleAndAddToTarget, h.scaleAndAddInto scale s hs]
    exact fillingAgrees _ _ hs
  | chain links =>
    refine writingTracks (h.chain fun link member x there => ?_) hs
    exact (coherent x (List.mem_flatMap.mpr ⟨link, member, there⟩)).readable
  | normInf =>
    exact readingAgrees (congrArg _ ((held.normInf word).trans (flat.normInf word).symm)) hs
  | walk count =>
    exact readingAgrees (congrArg _ ((held.walk word count).trans (flat.walk word count).symm)) hs
  | refresh frame =>
    simp only [run, Frame.refresh, h.copyInto s hs]
    exact fillingAgrees _ _ hs
  | restore frame => exact writingTracks (h.assign frame.values) hs

theorem runAllAgrees (h : v.Lawful inv size elements) (small : size < Index.limit)
    (ops : List (Operation T)) (coherent : ∀ op ∈ ops, ∀ c ∈ op.operands, c.Coherent) {s : σ}
    (hs : inv s) :
    Agree inv elements (runAll v ops s) (runAll Flat.layout ops (elements s)) := by
  induction ops generalizing s with
  | nil => exact ⟨rfl, rfl, hs⟩
  | cons op ops ih =>
    obtain ⟨outcome, shown, kept⟩ := runAgrees h small op (coherent op List.mem_cons_self) hs
    obtain ⟨outcomes, last, kept'⟩ :=
      ih (fun op' member => coherent op' (List.mem_cons_of_mem op member)) kept
    rw [shown] at outcomes last
    exact ⟨congrArg₂ List.cons outcome outcomes, last, kept'⟩

end Lawful

section Leaves

variable {v : Layout σ T} {inv : σ → Prop} {kept : σ → β}

theorem writingLeaves {u : Update σ Unit} (h : Update.Leaves inv kept u) {s : σ} (hs : inv s) :
    inv (writing u s : Outcome T × σ).2 ∧ kept (writing u s : Outcome T × σ).2 = kept s := by
  have left := h s hs
  simp only [writing]
  cases run : u s with
  | ok a s' => rw [run] at left; exact left
  | error e s' => rw [run] at left; exact left

theorem fillingKeeps {β : Type} (buffer : β → Option (Array T))
    (r : EStateM.Result Failure β Unit) (s : σ) : (filling buffer r s).2 = s := by
  cases r with
  | ok _ b => rfl
  | error e b => rfl

variable [Zero T] [One T] [Neg T] [Magnitude T]

theorem runLeaves (h : v.Leaves inv kept) (op : Operation T) {s : σ} (hs : inv s) :
    inv (op.run v s).2 ∧ kept (op.run v s).2 = kept s := by
  have still : ∀ {s' : σ}, s' = s → inv s' ∧ kept s' = kept s := by
    rintro _ rfl
    exact ⟨hs, rfl⟩
  cases op with
  | get index => exact still rfl
  | set index value => exact writingLeaves (h.modify index _) hs
  | setFrom source => exact writingLeaves (h.setFrom source) hs
  | assign values => exact writingLeaves (h.assign values) hs
  | clear => exact writingLeaves h.clear hs
  | toArray => exact still rfl
  | copyInto target => exact still (fillingKeeps _ _ _)
  | scaleAndAddInto scale target => exact still (fillingKeeps _ _ _)
  | chain links => exact writingLeaves (h.chain links) hs
  | normInf => exact still rfl
  | walk count => exact still rfl
  | refresh frame => exact still (fillingKeeps _ _ _)
  | restore frame => exact writingLeaves (h.assign frame.values) hs

theorem runAllLeaves (h : v.Leaves inv kept) (ops : List (Operation T)) {s : σ} (hs : inv s) :
    inv (runAll v ops s).2 ∧ kept (runAll v ops s).2 = kept s := by
  induction ops generalizing s with
  | nil => exact ⟨hs, rfl⟩
  | cons op ops ih =>
    obtain ⟨held, same⟩ := runLeaves h op hs
    obtain ⟨held', same'⟩ := ih held
    exact ⟨held', same'.trans same⟩

end Leaves

end Operation

end SignalVector
