import Mathlib.Algebra.GroupWithZero.Nat
import SignalVector.Proofs.Lawful
import SignalVector.Proofs.Leaving
import SignalVector.View.Blocks

/-! Lawful vectors that do not reach into one another, joined into one, are a lawful vector. It
shows the elements of the blocks one after the other, and each index belongs to exactly one of them.
-/
namespace SignalVector

open Update

variable {σ T : Type}

structure Part (σ T : Type) where
  layout : Layout σ T
  size : Nat
  elements : σ → Array T

namespace Part

def total (parts : List (Part σ T)) : Nat := (parts.map Part.size).sum

def joined (s : σ) : List (Part σ T) → Array T
  | [] => #[]
  | p :: parts => p.elements s ++ joined s parts

@[simp] theorem totalCons (p : Part σ T) (parts : List (Part σ T)) :
    total (p :: parts) = p.size + total parts := rfl

theorem sizeJoined {s : σ} {parts : List (Part σ T)}
    (sized : ∀ p ∈ parts, (p.elements s).size = p.size) : (joined s parts).size = total parts := by
  induction parts with
  | nil => rfl
  | cons p parts ih =>
    have tail := ih fun q member => sized q (List.mem_cons_of_mem p member)
    simp [joined, sized p List.mem_cons_self, tail]

theorem joinedAppend (s : σ) (first rest : List (Part σ T)) :
    joined s (first ++ rest) = joined s first ++ joined s rest := by
  induction first with
  | nil => simp [joined]
  | cons p first ih => simp [joined, ih, Array.append_assoc]

theorem joinedSame {s s' : σ} {parts : List (Part σ T)}
    (same : ∀ p ∈ parts, p.elements s' = p.elements s) : joined s' parts = joined s parts := by
  induction parts with
  | nil => rfl
  | cons p parts ih =>
    have tail := ih fun q member => same q (List.mem_cons_of_mem p member)
    simp [joined, same p List.mem_cons_self, tail]

end Part

namespace Blocks

def starts (offset : Nat) : List Nat → List Nat
  | [] => [offset]
  | size :: sizes => offset :: starts (offset + size) sizes

theorem madeStarts {offset : Nat} {sizes offsets : List Nat}
    (made : offsetsFrom offset sizes = .ok offsets) (word : offset < Index.limit) :
    offsets = starts offset sizes ∧ offset + sizes.sum < Index.limit := by
  induction sizes generalizing offset offsets with
  | nil =>
    cases made
    exact ⟨rfl, word⟩
  | cons size sizes ih =>
    obtain ⟨stop, added, rest⟩ := bindSucceeds made
    obtain ⟨tail, later, whole⟩ := bindSucceeds rest
    cases whole
    unfold Index.add at added
    split at added
    next next =>
      cases added
      obtain ⟨rfl, bound⟩ := ih later next
      exact ⟨rfl, by simpa [Nat.add_assoc] using bound⟩
    next => contradiction

theorem lastStart (offset : Nat) (sizes : List Nat) :
    (starts offset sizes).getLastD 0 = offset + sizes.sum := by
  induction sizes generalizing offset with
  | nil => rfl
  | cons size sizes ih =>
    have tail := ih (offset + size)
    cases sizes with
    | nil => simp [starts]
    | cons next sizes => simpa [starts, Nat.add_assoc] using tail

theorem located {parts : List (Part σ T)} (offset : Nat) {index : Nat} (reached : offset ≤ index)
    (inside : index < offset + Part.total parts) :
    ∃ before p behind, parts = before ++ p :: behind ∧
      ((starts offset (parts.map Part.size)).takeWhile (· ≤ index)).length = before.length + 1 ∧
      (starts offset (parts.map Part.size))[before.length]? = some (offset + Part.total before) ∧
      offset + Part.total before ≤ index ∧ index < offset + Part.total before + p.size := by
  induction parts generalizing offset with
  | nil => simp [Part.total] at inside; omega
  | cons p parts ih =>
    by_cases here : index < offset + p.size
    · refine ⟨[], p, parts, rfl, ?_, rfl, by simpa [Part.total] using reached,
        by simpa [Part.total] using here⟩
      have stop : ¬ offset + p.size ≤ index := Nat.not_le.mpr here
      cases parts with
      | nil => simp [starts, reached, stop]
      | cons q parts => simp [starts, reached, stop]
    · obtain ⟨before, q, behind, rfl, count, start, low, high⟩ :=
        ih (offset + p.size) (by omega) (by simpa [Nat.add_assoc] using inside)
      refine ⟨p :: before, q, behind, rfl, ?_, ?_, ?_, ?_⟩
      · simp [starts, reached] at count ⊢
        exact count
      · simpa [starts, Nat.add_assoc] using start
      · simpa [Nat.add_assoc] using low
      · simpa [Nat.add_assoc] using high

/- The blocks are the layouts of the parts, and start where the parts before them end. -/
structure Joins (b : Blocks σ T) (parts : List (Part σ T)) : Prop where
  blocks : b.blocks = parts.map Part.layout
  offsets : b.offsets = starts 0 (parts.map Part.size)
  word : Part.total parts < Index.limit

variable {b : Blocks σ T} {parts : List (Part σ T)}

theorem madeJoins {s : σ} (made : make (parts.map Part.layout) s = .ok b)
    (sized : ∀ p ∈ parts, p.layout.size s = p.size) : b.Joins parts := by
  have sizes : (parts.map Part.layout).map (·.size s) = parts.map Part.size := by
    rw [List.map_map]
    exact List.map_congr_left sized
  obtain ⟨offsets, sums, whole⟩ := bindSucceeds made
  cases whole
  rw [sizes] at sums
  obtain ⟨same, bound⟩ := madeStarts sums (by decide)
  exact ⟨rfl, same, by simpa [Part.total] using bound⟩

theorem sizeJoins (joins : b.Joins parts) : b.size = Part.total parts := by
  rw [size, joins.offsets, lastStart, Nat.zero_add]
  rfl

theorem locateInside (joins : b.Joins parts) {index : Nat} (inside : index < Part.total parts) :
    ∃ before p behind, parts = before ++ p :: behind ∧
      b.locate index = .ok (before.length, index - Part.total before) ∧
      Part.total before ≤ index ∧ index < Part.total before + p.size := by
  obtain ⟨before, p, behind, rfl, count, start, low, high⟩ :=
    located 0 (Nat.zero_le index) (by simpa using inside)
  simp only [Nat.zero_add] at start low high
  refine ⟨before, p, behind, rfl, ?_, low, high⟩
  simp only [locate, sizeJoins joins, checkIndexInside inside, joins.offsets, count, Index.sub,
    Nat.le_add_left, if_pos, Nat.add_sub_cancel, start, Index.found, if_pos low, bind, Except.bind,
    pure, Except.pure]

theorem locateOutside (joins : b.Joins parts) {index : Nat} (outside : Part.total parts ≤ index) :
    b.locate index = .error (.refused (.outOfRange index (Part.total parts))) := by
  simp only [locate, sizeJoins joins, checkIndexOutside outside, bind, Except.bind]

theorem findInside (joins : b.Joins parts) {index : Nat} (inside : index < Part.total parts) :
    ∃ before p behind, parts = before ++ p :: behind ∧
      b.find index = .ok (p.layout, index - Part.total before) ∧
      Part.total before ≤ index ∧ index < Part.total before + p.size := by
  obtain ⟨before, p, behind, rfl, located, low, high⟩ := locateInside joins inside
  have block : b.blocks[before.length]? = some p.layout := by simp [joins.blocks]
  refine ⟨before, p, behind, rfl, ?_, low, high⟩
  simp only [find, located, block, Index.found, bind, Except.bind, pure, Except.pure]

theorem findOutside (joins : b.Joins parts) {index : Nat} (outside : Part.total parts ≤ index) :
    b.find index = .error (.refused (.outOfRange index (Part.total parts))) := by
  simp only [find, locateOutside joins outside, bind, Except.bind]

theorem cellsHold (joins : b.Joins parts) {s : σ}
    (shows : ∀ p ∈ parts, (p.layout.cells s).Reads (p.elements s))
    (sized : ∀ p ∈ parts, (p.elements s).size = p.size) :
    (b.access.cells s).Holds (Part.joined s parts) where
  size := (sizeJoins joins).trans (Part.sizeJoined sized).symm
  get i := by
    by_cases inside : i < Part.total parts
    · obtain ⟨before, p, behind, rfl, found, low, high⟩ := findInside joins inside
      have member : p ∈ before ++ p :: behind := by simp
      have sizeBefore : (Part.joined s before).size = Part.total before :=
        Part.sizeJoined fun q h => sized q (List.mem_append_left _ h)
      have sizeHere := sized p member
      have there : i - Part.total before < (p.elements s).size := by omega
      have whole : i < (Part.joined s (before ++ p :: behind)).size := by
        rw [Part.sizeJoined sized]; exact inside
      simp only [access, found, bind, Except.bind, (shows p member).get _ there]
      rw [Cells.readSliceInside whole]
      simp only [Part.joinedAppend, Part.joined]
      rw [Array.getElem_append_right (by omega), Array.getElem_append_left (by omega)]
      simp only [sizeBefore]
    · have outside : Part.total parts ≤ i := Nat.not_lt.mp inside
      simp only [access, findOutside joins outside, bind, Except.bind]
      rw [Cells.readSliceOutside (by rw [Part.sizeJoined sized]; exact outside),
        Part.sizeJoined sized]
  contiguous _ h := by cases h

end Blocks

structure Part.Separate [Zero T] [Add T] [Mul T] (inv : σ → Prop) (parts : List (Part σ T)) :
    Prop where
  reaches : ∀ p ∈ parts, p.layout.Reaches inv p.size p.elements
  apart : parts.Pairwise fun p q =>
    p.layout.Leaves inv q.elements ∧ q.layout.Leaves inv p.elements

theorem Part.Separate.around [Zero T] [Add T] [Mul T] {inv : σ → Prop}
    {before behind : List (Part σ T)} {p : Part σ T}
    (separate : Separate inv (before ++ p :: behind)) :
    (∀ q ∈ before, p.layout.Leaves inv q.elements) ∧
      ∀ q ∈ behind, p.layout.Leaves inv q.elements := by
  obtain ⟨_, tail, across⟩ := List.pairwise_append.mp separate.apart
  exact ⟨fun q h => (across q h p List.mem_cons_self).2,
    fun q h => ((List.pairwise_cons.mp tail).1 q h).1⟩

theorem Part.joinedModify {s s' : σ} {before behind : List (Part σ T)} {p : Part σ T} {j : Nat}
    {f : T → T} (front : ∀ q ∈ before, q.elements s' = q.elements s)
    (here : p.elements s' = (p.elements s).modify j f)
    (back : ∀ q ∈ behind, q.elements s' = q.elements s) (inside : j < (p.elements s).size) :
    joined s' (before ++ p :: behind) =
      (joined s (before ++ p :: behind)).modify ((joined s before).size + j) f := by
  simp only [joinedAppend, joined, joinedSame front, joinedSame back, here]
  apply Array.ext
  · simp
  · intro i _ _
    simp only [Array.getElem_modify, Array.getElem_append, Array.size_modify]
    grind

namespace Blocks

section Spans

variable {inv : σ → Prop} {b : Blocks σ T} {parts : List (Part σ T)}

theorem modifyFound {index inner : Nat} {v : Layout σ T} (found : b.find index = .ok (v, inner))
    (f : T → T) (s : σ) : b.access.modify index f s = v.modify inner f s := by
  simp only [access, found, okBind]

theorem modifyOutside (joins : b.Joins parts) {index : Nat} (outside : Part.total parts ≤ index)
    (f : T → T) (s : σ) :
    b.access.modify index f s = .error (.refused (.outOfRange index (Part.total parts))) s := by
  simp only [access, findOutside joins outside, errorBind]

def spansFrom (offset : Nat) : List (Part σ T) → List (Layout σ T × Nat × Nat)
  | [] => []
  | p :: parts => (p.layout, offset, offset + p.size) :: spansFrom (offset + p.size) parts

theorem spansJoins (joins : b.Joins parts) : b.spans = spansFrom 0 parts := by
  have along : ∀ (parts : List (Part σ T)) (offset : Nat),
      (parts.map Part.layout).zip ((starts offset (parts.map Part.size)).zip
        (starts offset (parts.map Part.size)).tail) = spansFrom offset parts := by
    intro parts
    induction parts with
    | nil => intro offset; rfl
    | cons p parts ih =>
      intro offset
      have tail := ih (offset + p.size)
      cases parts with
      | nil => rfl
      | cons q parts =>
        simp only [List.map_cons, starts, List.tail_cons, List.zip_cons_cons, spansFrom] at tail ⊢
        rw [tail]
  rw [spans, joins.blocks, joins.offsets]
  exact along parts 0

theorem spanInside {values : Array T} {offset size : Nat} (inside : offset + size ≤ values.size) :
    Buffer.span values offset (offset + size) = .ok (values.extract offset (offset + size)) :=
  if_pos ⟨Nat.le_add_right _ _, inside⟩

theorem memberSpans {offset : Nat} {span : Layout σ T × Nat × Nat}
    (member : span ∈ spansFrom offset parts) : ∃ p ∈ parts, span.1 = p.layout := by
  induction parts generalizing offset with
  | nil => cases member
  | cons p parts ih =>
    rcases List.mem_cons.mp member with rfl | later
    · exact ⟨p, List.mem_cons_self, rfl⟩
    · obtain ⟨q, h, same⟩ := ih later
      exact ⟨q, List.mem_cons_of_mem p h, same⟩

def assignSpan (values : Array T) (span : Layout σ T × Nat × Nat) : Update σ Unit := do
  span.1.assign (← Buffer.span values span.2.1 span.2.2)

theorem leavesSpans {β : Type} {kept : σ → β} {parts : List (Part σ T)}
    (h : ∀ p ∈ parts, p.layout.Leaves inv kept) (values : Array T) (offset : Nat) :
    Update.Leaves inv kept ((spansFrom offset parts).forM (assignSpan values)) := by
  refine leavesForM _ fun span member => leavesBind (leavesLift _) fun part => ?_
  obtain ⟨p, there, same⟩ := memberSpans member
  rw [same]
  exact (h p there).assign part

def combineFrom (offset : Nat) (f : T → T → T) (items target : Array T) : Array T :=
  target.mapIdx fun i old =>
    if offset ≤ i then
      match items[i - offset]? with
      | some item => f old item
      | none => old
    else old

theorem combineFromZero {f : T → T → T} {items target : Array T}
    (same : items.size = target.size) :
    combineFrom 0 f items target = Array.zipWith f target items := by
  apply Array.ext
  · simp [combineFrom, same]
  · intro i _ inside
    have there : i < items.size := by
      simp only [Array.size_zipWith] at inside
      omega
    simp [combineFrom, there]

theorem combineFromAppend (offset : Nat) (f : T → T → T) (xs ys target : Array T) :
    combineFrom (offset + xs.size) f ys (combineFrom offset f xs target) =
      combineFrom offset f (xs ++ ys) target := by
  apply Array.ext
  · simp [combineFrom]
  · intro i _ _
    simp only [combineFrom, Array.getElem_mapIdx, Array.getElem?_append]
    grind

theorem onSpanCombine {offset : Nat} {f : T → T → T} {xs target : Array T}
    (inside : offset + xs.size ≤ target.size) :
    Buffer.onSpan offset (offset + xs.size) (Flat.combine f xs) target =
      .ok () (combineFrom offset f xs target) := by
  have same : xs.size = (target.extract offset (offset + xs.size)).size := by
    simp only [Array.size_extract]
    omega
  have spliced : target.extract 0 offset ++
      Array.zipWith f (target.extract offset (offset + xs.size)) xs ++
      target.extract (offset + xs.size) target.size = combineFrom offset f xs target := by
    apply Array.ext
    · simp [combineFrom]
      omega
    · intro i _ _
      have front : min offset target.size = offset := by omega
      have back : min (offset + xs.size) target.size = offset + xs.size := by omega
      simp only [combineFrom, Array.getElem_mapIdx, Array.getElem_append, Array.getElem_extract,
        Array.getElem_zipWith, Array.size_append, Array.size_extract, Array.size_zipWith, front, back,
        Nat.sub_zero, Nat.add_sub_cancel_left, Nat.min_self, Nat.zero_add]
      by_cases before : i < offset
      · simp [before, Nat.not_le.mpr before, Nat.lt_add_right]
      · have reached : offset ≤ i := Nat.not_lt.mp before
        by_cases within : i < offset + xs.size
        · have there : i - offset < xs.size := by omega
          simp [before, within, reached, there]
        · have behind : xs.size ≤ i - offset := by omega
          have after : offset + xs.size ≤ i := Nat.not_lt.mp within
          simp [within, reached, Array.getElem?_eq_none behind, after]
  rw [Buffer.onSpan, if_pos ⟨Nat.le_add_right _ _, inside⟩, wrap, Flat.combineFits same]
  exact congrArg _ spliced

def copySpan (g : Layout σ T → Update (Array T) Unit) (span : Layout σ T × Nat × Nat) :
    Update (Array T) Unit :=
  Buffer.onSpan span.2.1 span.2.2 (g span.1)

theorem combineSpans {f : T → T → T} {g : Layout σ T → Update (Array T) Unit} {s : σ}
    {parts : List (Part σ T)} (copies : ∀ p ∈ parts, g p.layout = Flat.combine f (p.elements s))
    (sized : ∀ p ∈ parts, (p.elements s).size = p.size) (offset : Nat) (target : Array T)
    (inside : offset + Part.total parts ≤ target.size) :
    (spansFrom offset parts).forM (copySpan g) target =
      .ok () (combineFrom offset f (Part.joined s parts) target) := by
  induction parts generalizing offset target with
  | nil =>
    have same : combineFrom offset f #[] target = target := by
      apply Array.ext <;> simp [combineFrom]
    rw [Part.joined, same]
    rfl
  | cons p parts ih =>
    have here := sized p List.mem_cons_self
    rw [Part.totalCons, ← Nat.add_assoc, ← here] at inside
    have fits : offset + (p.elements s).size ≤ target.size := by omega
    have head : copySpan g (p.layout, offset, offset + p.size) target =
        .ok () (combineFrom offset f (p.elements s) target) := by
      change Buffer.onSpan offset (offset + p.size) (g p.layout) target = _
      rw [copies p List.mem_cons_self, ← here]
      exact onSpanCombine fits
    have tail := ih (fun q h => copies q (List.mem_cons_of_mem p h))
      (fun q h => sized q (List.mem_cons_of_mem p h)) (offset + (p.elements s).size)
      (combineFrom offset f (p.elements s) target) (by simpa [combineFrom] using inside)
    rw [spansFrom, forMCons _ head, ← here, tail, combineFromAppend, Part.joined]

end Spans

variable [Zero T] [Add T] [Mul T] {inv : σ → Prop} {b : Blocks σ T} {parts : List (Part σ T)}

theorem accessLawful (joins : b.Joins parts) (separate : Part.Separate inv parts) :
    b.access.Lawful inv (Part.total parts) (Part.joined · parts) where
  sized s hs := Part.sizeJoined fun p h => (separate.reaches p h).sized s hs
  cells s hs := cellsHold joins (fun p h => (separate.reaches p h).reads s hs)
    fun p h => (separate.reaches p h).sized s hs
  modify index f := by
    intro s hs
    have parted : ∀ p ∈ parts, (p.elements s).size = p.size :=
      fun p h => (separate.reaches p h).sized s hs
    have sized : (Part.joined s parts).size = Part.total parts := Part.sizeJoined parted
    by_cases inside : index < Part.total parts
    · obtain ⟨before, p, behind, rfl, found, low, high⟩ := findInside joins inside
      have member : p ∈ before ++ p :: behind := by simp
      have start : (Part.joined s before).size = Part.total before :=
        Part.sizeJoined fun q h => parted q (List.mem_append_left _ h)
      have there : index - Part.total before < (p.elements s).size := by
        rw [parted p member]; omega
      have changes := (separate.reaches p member).modifies (index - Part.total before) (by omega) f
      obtain ⟨s', run, kept, changed⟩ := tracksRun changes hs (Flat.modifyInside f there)
      obtain ⟨front, back⟩ := separate.around
      have still : ∀ q : Part σ T, p.layout.Leaves inv q.elements → q.elements s' = q.elements s := by
        intro q apart
        have same := (apart.modify (index - Part.total before) f s hs).2
        rwa [run] at same
      have whole := Part.joinedModify (fun q h => still q (front q h)) changed
        (fun q h => still q (back q h)) there
      rw [start, Nat.add_sub_cancel' low] at whole
      refine tracksOk ((modifyFound found f s).trans run) ?_ kept
      rw [whole]
      exact Flat.modifyInside f (sized.symm ▸ inside)
    · have outside : Part.total parts ≤ index := Nat.not_lt.mp inside
      refine tracksError (modifyOutside joins outside f s) ?_ hs
      rw [Flat.modifyOutside f (sized.symm ▸ outside), sized]
  slots _ _ _ found := by cases found

/- Later blocks are written after earlier ones and do not reach back into them. -/
theorem assignFrom {parts : List (Part σ T)} (separate : Part.Separate inv parts)
    (values : Array T) (offset : Nat) (inside : offset + Part.total parts ≤ values.size) {s : σ}
    (hs : inv s) :
    ∃ s', (spansFrom offset parts).forM (assignSpan values) s = .ok () s' ∧ inv s' ∧
      Part.joined s' parts = values.extract offset (offset + Part.total parts) := by
  induction parts generalizing offset s with
  | nil => exact ⟨s, rfl, hs, (Array.extract_empty_of_stop_le_start (Nat.le_refl offset)).symm⟩
  | cons p parts ih =>
    rw [Part.totalCons, ← Nat.add_assoc] at inside
    obtain ⟨apart, tail⟩ := List.pairwise_cons.mp separate.apart
    have reaches := separate.reaches p List.mem_cons_self
    have span : Buffer.span values offset (offset + p.size) =
        .ok (values.extract offset (offset + p.size)) := spanInside (by omega)
    have fits : (p.elements s).size = (values.extract offset (offset + p.size)).size := by
      rw [reaches.sized s hs, Array.size_extract]
      omega
    obtain ⟨s₁, run, kept, written⟩ := tracksRun (reaches.assign _) hs (Flat.assignFits fits)
    obtain ⟨s₂, rest, kept', behind⟩ :=
      ih ⟨fun q h => separate.reaches q (List.mem_cons_of_mem p h), tail⟩ (offset + p.size) inside kept
    have still : p.elements s₂ = p.elements s₁ := by
      have same := (leavesSpans (fun q h => (apart q h).2) values (offset + p.size) s₁ kept).2
      rwa [rest] at same
    have head : assignSpan values (p.layout, offset, offset + p.size) s = .ok () s₁ := by
      simpa only [assignSpan, span, okBind] using run
    refine ⟨s₂, (forMCons _ head).trans rest, kept', ?_⟩
    rw [Part.joined, still, written, behind, Array.extract_append_extract, Part.totalCons]
    simp [Nat.add_assoc]

omit [Zero T] [Add T] [Mul T] in
theorem assignMisfit (joins : b.Joins parts) {values : Array T}
    (other : Part.total parts ≠ values.size) (s : σ) :
    b.assign values s =
      .error (.refused (.sizeMismatch (Part.total parts) values.size)) s := by
  simp only [assign, sizeJoins joins, checkSizeOther other, errorBind]

theorem assignLawful (joins : b.Joins parts) (separate : Part.Separate inv parts)
    (values : Array T) : Tracks inv (Part.joined · parts) (b.assign values) (Flat.assign values) := by
  intro s hs
  have sized := (accessLawful joins separate).sized s hs
  by_cases same : Part.total parts = values.size
  · obtain ⟨s', run, kept, written⟩ :=
      assignFrom separate values 0 (by omega) hs
    refine tracksOk (a := ()) ?_ ?_ kept
    · rw [← run, ← spansJoins joins]
      simp only [assign, sizeJoins joins, checkSizeSame same, okBind]
      rfl
    · have full : values.extract 0 values.size = values := Array.extract_size
      rw [written, Nat.zero_add, same, full]
      exact Flat.assignFits (sized.trans same)
  · refine tracksError (assignMisfit joins same s) ?_ hs
    rw [← sized]
    exact Flat.assignMisfit (sized.symm ▸ same)

theorem clearAll {parts : List (Part σ T)} (separate : Part.Separate inv parts) {s : σ}
    (hs : inv s) :
    ∃ s', (parts.map Part.layout).forM (fun block => block.clear) s = .ok () s' ∧ inv s' ∧
      Part.joined s' parts = Array.replicate (Part.total parts) 0 := by
  induction parts generalizing s with
  | nil => exact ⟨s, rfl, hs, rfl⟩
  | cons p parts ih =>
    obtain ⟨apart, tail⟩ := List.pairwise_cons.mp separate.apart
    have reaches := separate.reaches p List.mem_cons_self
    obtain ⟨s₁, run, kept, written⟩ := tracksRun reaches.clear hs rfl
    obtain ⟨s₂, rest, kept', behind⟩ :=
      ih ⟨fun q h => separate.reaches q (List.mem_cons_of_mem p h), tail⟩ kept
    have still : p.elements s₂ = p.elements s₁ := by
      have leaves : Update.Leaves inv p.elements
          ((parts.map Part.layout).forM fun block => block.clear) := by
        refine leavesForM _ fun block member => ?_
        obtain ⟨q, h, rfl⟩ := List.mem_map.mp member
        exact (apart q h).2.clear
      have same := (leaves s₁ kept).2
      rwa [rest] at same
    refine ⟨s₂, (forMCons _ run).trans rest, kept', ?_⟩
    rw [Part.joined, still, written, behind, reaches.sized s hs, Part.totalCons]
    simp

theorem clearLawful (joins : b.Joins parts) (separate : Part.Separate inv parts) :
    Tracks inv (Part.joined · parts) b.clear Flat.clear := by
  intro s hs
  obtain ⟨s', run, kept, written⟩ := clearAll separate hs
  refine tracksOk (a := ()) ?_ ?_ kept
  · rw [clear, joins.blocks]
    exact run
  · rw [written, ← (accessLawful joins separate).sized s hs]
    rfl

omit [Zero T] [Add T] [Mul T] in
theorem copiesInto (joins : b.Joins parts) {s : σ} (sized : ∀ p ∈ parts, (p.elements s).size = p.size)
    {f : T → T → T} {g : Layout σ T → Update (Array T) Unit}
    (copies : ∀ p ∈ parts, g p.layout = Flat.combine f (p.elements s)) :
    (do checkSize b.size (← get).size; b.spans.forM (copySpan g) : Update (Array T) Unit) =
      Flat.combine f (Part.joined s parts) := by
  funext target
  have whole : (Part.joined s parts).size = Part.total parts := Part.sizeJoined sized
  by_cases same : Part.total parts = target.size
  · rw [Flat.combineFits (whole.trans same), ← combineFromZero (whole.trans same),
      ← combineSpans copies sized 0 target (by omega), ← spansJoins joins]
    simp only [getBind, sizeJoins joins, checkSizeSame same, okBind]
  · rw [Flat.combineMisfit (whole.symm ▸ same), whole]
    simp only [getBind, sizeJoins joins, checkSizeOther same, errorBind]

theorem layoutLawful (joins : b.Joins parts) (separate : Part.Separate inv parts) :
    b.layout.Lawful inv (Part.total parts) (Part.joined · parts) := by
  have access := accessLawful joins separate
  have default := access.toLayout joins.word
  have parted : ∀ s, inv s → ∀ p ∈ parts, (p.elements s).size = p.size :=
    fun s hs p h => (separate.reaches p h).sized s hs
  exact {
    toLawful := access
    toArray := default.toArray
    copyInto := fun s hs =>
      copiesInto (g := fun v => v.copyInto s) joins (parted s hs)
        fun p h => (separate.reaches p h).copyInto s hs
    scaleAndAddInto := fun scale s hs =>
      copiesInto (g := fun v => v.scaleAndAddInto scale s) joins (parted s hs)
        fun p h => (separate.reaches p h).scaleAndAddInto scale s hs
    assign := assignLawful joins separate
    clear := clearLawful joins separate
    accumulate := default.accumulate }

omit [Zero T] [Add T] [Mul T] in
theorem accessLeaves {β : Type} {kept : σ → β} (joins : b.Joins parts)
    (apart : ∀ p ∈ parts, p.layout.Leaves inv kept) : b.access.Leaves inv kept where
  modify index f s hs := by
    by_cases inside : index < Part.total parts
    · obtain ⟨before, p, behind, rfl, found, -, -⟩ := findInside joins inside
      rw [modifyFound found]
      exact (apart p (by simp)).modify _ f s hs
    · rw [modifyOutside joins (Nat.not_lt.mp inside)]
      exact ⟨hs, rfl⟩
  slots _ _ _ found := by cases found

theorem layoutLeaves {β : Type} {kept : σ → β} (joins : b.Joins parts)
    (apart : ∀ p ∈ parts, p.layout.Leaves inv kept) : b.layout.Leaves inv kept where
  toLeaves := accessLeaves joins apart
  assign values := leavesBind (leavesLift _) fun _ => by
    rw [spansJoins joins]
    exact leavesSpans apart values 0
  clear := by
    change Update.Leaves inv kept (b.blocks.forM fun block => block.clear)
    rw [joins.blocks]
    refine leavesForM _ fun block member => ?_
    obtain ⟨p, there, rfl⟩ := List.mem_map.mp member
    exact (apart p there).clear
  accumulate := (accessLeaves joins apart).accumulate

end Blocks

end SignalVector
