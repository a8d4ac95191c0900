import SignalVector.Proofs.Memory

/-! The offsets of joined blocks. They stay the running sums of the block sizes whatever is called
through the whole, and a search among them finds the one block that owns an index, also where empty
blocks repeat an offset. -/
namespace SignalVector

open Operation (runAll)

variable {σ T : Type}

namespace Blocks

section Starts

variable {offset : Nat} {sizes : List Nat}

theorem lengthStarts : (starts offset sizes).length = sizes.length + 1 := by
  induction sizes generalizing offset with
  | nil => rfl
  | cons size sizes ih => exact congrArg (· + 1) ih

theorem startsReach {start : Nat} (member : start ∈ starts offset sizes) : offset ≤ start := by
  induction sizes generalizing offset with
  | nil => exact Nat.le_of_eq (List.mem_singleton.mp member).symm
  | cons size sizes ih =>
    rcases List.mem_cons.mp member with rfl | later
    · exact Nat.le_refl start
    · exact Nat.le_of_add_right_le (ih later)

theorem startsSorted : (starts offset sizes).Pairwise (· ≤ ·) := by
  induction sizes generalizing offset with
  | nil => exact List.pairwise_singleton _ _
  | cons size sizes ih =>
    exact .cons (fun start member => Nat.le_of_add_right_le (startsReach member)) ih

theorem startsPartitioned {starts : List Nat} (sorted : starts.Pairwise (· ≤ ·)) {index start : Nat}
    (behind : start ∈ starts.dropWhile (· ≤ index)) : index < start := by
  induction sorted with
  | nil => cases behind
  | @cons first starts later _ ih =>
    by_cases reached : first ≤ index
    · exact ih (by simpa [List.dropWhile_cons, reached] using behind)
    · have stopped : start ∈ first :: starts := by
        simpa [List.dropWhile_cons, reached] using behind
      rcases List.mem_cons.mp stopped with rfl | member
      · exact Nat.not_le.mp reached
      · exact (Nat.not_le.mp reached).trans_le (later start member)

end Starts

def Owns (b : Blocks σ T) (s : σ) (k inner index : Nat) : Prop :=
  ∃ block start, b.block? k = some block ∧ b.offset? k = some start ∧ inner < block.size s ∧
    start + inner = index

structure Placed [Zero T] [Add T] [Mul T] (b : Blocks σ T) (s : σ) : Prop where
  first : b.offsets[0]? = some 0
  next : ∀ k block, b.block? k = some block → ∃ start, b.offset? k = some start ∧
    b.offsets[k]? = some start ∧ b.offsets[k + 1]? = some (start + block.size s)
  last : b.offsets.length = b.count + 1 ∧ b.offsets[b.count]? = some (b.layout.size s)
  partitioned : ∀ index, ∀ start ∈ b.offsets.dropWhile (· ≤ index), index < start
  inside : ∀ index < b.layout.size s, ∃ k inner, b.locate index = .ok (k, inner) ∧ k < b.count ∧
    ∀ k' inner', b.Owns s k' inner' index ↔ k' = k ∧ inner' = inner
  outside : ∀ index, b.layout.size s ≤ index →
    b.locate index = .error (.refused (.outOfRange index (b.layout.size s)))
  shows : ∀ k block start inner, b.block? k = some block → b.offset? k = some start →
    inner < block.size s → (b.layout.cells s).get (start + inner) = (block.cells s).get inner ∧
      ∀ f, b.layout.modify (start + inner) f s = block.modify inner f s
  absent : ∀ k, (b.block? k = none ↔ b.count ≤ k) ∧ (b.offset? k = none ↔ b.count ≤ k)

theorem totalTake (parts : List (Part σ T)) {k k' : Nat} (before : k ≤ k') :
    Part.total (parts.take k) ≤ Part.total (parts.take k') := by
  have sums := List.monotone_sum_take (parts.map Part.size) before
  simpa only [Part.total, List.map_take] using sums

section Joined

variable {b : Blocks σ T} {parts : List (Part σ T)} (joins : b.Joins parts)

include joins

theorem countJoins : b.count = parts.length := by rw [count, joins.blocks, List.length_map]

theorem offsetJoins {k : Nat} (within : k ≤ parts.length) :
    b.offsets[k]? = some (Part.total (parts.take k)) := by
  rw [joins.offsets, startsAt 0 (by simpa using within), Nat.zero_add, Part.total, List.map_take]

theorem blockJoins {k : Nat} {block : Layout σ T} :
    b.block? k = some block ↔ ∃ p, parts[k]? = some p ∧ p.layout = block := by
  rw [block?, joins.blocks, List.getElem?_map, Option.map_eq_some_iff]

theorem startJoins {k : Nat} {p : Part σ T} (there : parts[k]? = some p) :
    b.offset? k = some (Part.total (parts.take k)) ∧
      Part.total (parts.take (k + 1)) = Part.total (parts.take k) + p.size := by
  obtain ⟨inside, here⟩ := List.getElem?_eq_some_iff.mp there
  constructor
  · rw [offset?, if_pos ((countJoins joins).symm ▸ inside), offsetJoins joins inside.le]
  · rw [List.take_succ_eq_append_getElem inside, here, Part.total, Part.total]
    simp

theorem absentJoins (k : Nat) :
    (b.block? k = none ↔ b.count ≤ k) ∧ (b.offset? k = none ↔ b.count ≤ k) := by
  refine ⟨List.getElem?_eq_none_iff, ?_⟩
  unfold offset?
  split
  · rename_i inside
    rw [offsetJoins joins (countJoins joins ▸ inside).le]
    simp [inside]
  · rename_i outside
    simp [Nat.not_lt.mp outside]

variable {s : σ} (sized : ∀ p ∈ parts, p.layout.size s = p.size)

include sized

theorem ownsJoins {k inner index : Nat} : b.Owns s k inner index ↔
    ∃ p, parts[k]? = some p ∧ inner < p.size ∧ Part.total (parts.take k) + inner = index := by
  constructor
  · rintro ⟨block, start, found, starts, inside, placed⟩
    obtain ⟨p, there, rfl⟩ := (blockJoins joins).mp found
    cases starts.symm.trans (startJoins joins there).1
    exact ⟨p, there, sized p (List.mem_of_getElem? there) ▸ inside, placed⟩
  · rintro ⟨p, there, inside, placed⟩
    exact ⟨p.layout, _, (blockJoins joins).mpr ⟨p, there, rfl⟩, (startJoins joins there).1,
      (sized p (List.mem_of_getElem? there)).symm ▸ inside, placed⟩

theorem ownerFirst {k k' inner inner' index : Nat} (owns : b.Owns s k inner index)
    (owns' : b.Owns s k' inner' index) : k ≤ k' := by
  obtain ⟨p, there, inside, placed⟩ := (ownsJoins joins sized).mp owns
  obtain ⟨p', there', inside', placed'⟩ := (ownsJoins joins sized).mp owns'
  by_contra later
  have ends := (startJoins joins there').2
  have behind : Part.total (parts.take (k' + 1)) ≤ Part.total (parts.take k) :=
    totalTake parts (Nat.not_le.mp later)
  omega

theorem ownerOnce {k k' inner inner' index : Nat} (owns : b.Owns s k inner index)
    (owns' : b.Owns s k' inner' index) : k' = k ∧ inner' = inner := by
  have same : k' = k := Nat.le_antisymm (ownerFirst joins sized owns' owns)
    (ownerFirst joins sized owns owns')
  subst same
  obtain ⟨p, -, -, placed⟩ := (ownsJoins joins sized).mp owns
  obtain ⟨p', -, -, placed'⟩ := (ownsJoins joins sized).mp owns'
  exact ⟨rfl, Nat.add_left_cancel (placed'.trans placed.symm)⟩

theorem locatesOwner {index : Nat} (inside : index < Part.total parts) :
    ∃ k inner, b.locate index = .ok (k, inner) ∧ b.Owns s k inner index := by
  obtain ⟨before, p, behind, rfl, located, low, high⟩ := locateInside joins inside
  refine ⟨_, _, located, (ownsJoins joins sized).mpr ⟨p, by simp, by omega, ?_⟩⟩
  rw [List.take_left, Nat.add_sub_cancel' low]

theorem findsOwner {k inner index : Nat} {block : Layout σ T} (found : b.block? k = some block)
    (owns : b.Owns s k inner index) : b.find index = .ok (block, inner) := by
  obtain ⟨p, there, within, placed⟩ := (ownsJoins joins sized).mp owns
  have inside : index < Part.total parts := by
    have ends := (startJoins joins there).2
    have whole : Part.total (parts.take (k + 1)) ≤ Part.total (parts.take parts.length) :=
      totalTake parts (List.getElem?_eq_some_iff.mp there).1
    rw [List.take_length] at whole
    omega
  obtain ⟨k', inner', located, owns'⟩ := locatesOwner joins sized inside
  obtain ⟨rfl, rfl⟩ := ownerOnce joins sized owns owns'
  have here : b.blocks[k']? = some block := found
  simp only [find, located, here, Index.found, bind, Except.bind, pure, Except.pure]

theorem placedJoins [Zero T] [Add T] [Mul T] : b.Placed s := by
  have whole : b.layout.size s = Part.total parts := sizeJoins joins
  refine ⟨offsetJoins joins (Nat.zero_le _), ?_, ?_, ?_, ?_, ?_, ?_, absentJoins joins⟩
  · intro k block found
    obtain ⟨p, there, rfl⟩ := (blockJoins joins).mp found
    have inside : k < parts.length := (List.getElem?_eq_some_iff.mp there).1
    obtain ⟨start, ends⟩ := startJoins joins there
    refine ⟨_, start, offsetJoins joins inside.le, ?_⟩
    rw [offsetJoins joins inside, ends, sized p (List.mem_of_getElem? there)]
  · rw [whole, countJoins joins]
    refine ⟨?_, by rw [offsetJoins joins (Nat.le_refl _), List.take_length]⟩
    rw [joins.offsets, lengthStarts, List.length_map]
  · exact fun index start => startsPartitioned (joins.offsets ▸ startsSorted)
  · intro index inside
    obtain ⟨k, inner, located, owns⟩ := locatesOwner joins sized (whole ▸ inside)
    obtain ⟨p, there, -⟩ := (ownsJoins joins sized).mp owns
    refine ⟨k, inner, located, ?_, fun k' inner' => ⟨ownerOnce joins sized owns, ?_⟩⟩
    · rw [countJoins joins]
      exact (List.getElem?_eq_some_iff.mp there).1
    · rintro ⟨rfl, rfl⟩
      exact owns
  · intro index outside
    rw [whole] at outside ⊢
    exact locateOutside joins outside
  · intro k block start inner found starts inside
    have owner := findsOwner joins sized found ⟨block, start, found, starts, inside, rfl⟩
    refine ⟨?_, fun f => modifyFound owner f s⟩
    simp only [layout, Access.toLayout, access, owner, bind, Except.bind]

end Joined

theorem placedAfter [Zero T] [One T] [Add T] [Mul T] [Neg T] [Magnitude T] (inv : σ → Prop)
    {vs : List (Layout σ T)} {s : σ} (hs : inv s) (steady : ∀ v ∈ vs, ∀ w ∈ vs, v.Leaves inv w.size)
    (word : (vs.map (·.size s)).sum < Index.limit) :
    ∃ b, make vs s = .ok b ∧ b.blocks = vs ∧ ∀ ops, b.Placed (runAll b.layout ops s).2 := by
  let parts : List (Part σ T) := vs.map fun v => ⟨v, v.size s, fun _ => #[]⟩
  have layouts : parts.map Part.layout = vs := List.map_map.trans (List.map_id vs)
  have summed : offsetsFrom 0 (vs.map (·.size s)) = .ok (starts 0 (vs.map (·.size s))) :=
    offsetsSummed ((Nat.zero_add _).symm ▸ word)
  have made : make vs s = .ok ⟨vs, starts 0 (vs.map (·.size s))⟩ := by
    simp only [make, summed, bind, Except.bind, pure, Except.pure]
  have measured : ∀ p ∈ parts, p.layout.size s = p.size := by
    intro p member
    obtain ⟨v, -, rfl⟩ := List.mem_map.mp member
    rfl
  have joins : Joins ⟨vs, starts 0 (vs.map (·.size s))⟩ parts :=
    madeJoins (layouts.symm ▸ made) measured
  refine ⟨_, made, rfl, fun ops => placedJoins joins fun p member => ?_⟩
  obtain ⟨w, there, rfl⟩ := List.mem_map.mp member
  refine (Operation.runAllLeaves (layoutLeaves joins fun q other => ?_) ops hs).2
  obtain ⟨v, here, rfl⟩ := List.mem_map.mp other
  exact steady v here w there

end Blocks

namespace View

open Registry (HasShapes)

variable [Zero T] [Add T] [Mul T]

theorem steadyParts {r : Registry T} {parts : List View} {vs : List (Layout (Registry T) T)}
    (grounded : Grounded r (.blocks parts)) (opened : openAll r parts = .ok vs) :
    ∀ v ∈ vs, ∀ w ∈ vs, v.Leaves (HasShapes r.shapes) w.size := by
  obtain ⟨pairs, rfl, rfl, each⟩ := openedAll opened
  intro v here w there
  obtain ⟨q, listed, rfl⟩ := List.mem_map.mp here
  obtain ⟨q', listed', rfl⟩ := List.mem_map.mp there
  have any : q.2.Leaves (HasShapes r.shapes) fun _ => () :=
    layoutLeaves (openedSource (each q listed)) (grounded.part (List.mem_map_of_mem listed))
      fun _ _ _ _ => rfl
  have sized : ∀ s, s.HasShapes r.shapes → q'.2.size s = (q'.1.elements r).size := by
    intro s hs
    obtain ⟨held, same⟩ := cellsHold (openedSource (each q' listed')) hs
    exact held.size.trans same
  exact any.determined fun s s' hs hs' _ => (sized s hs).trans (sized s' hs').symm

variable [One T] [Neg T] [Magnitude T]

theorem blocksPlaced :
    (∀ {σ : Type} (inv : σ → Prop) {vs : List (Layout σ T)} {s : σ}, inv s →
      (∀ v ∈ vs, ∀ w ∈ vs, v.Leaves inv w.size) → (vs.map (·.size s)).sum < Index.limit →
      ∃ b, Blocks.make vs s = .ok b ∧ b.blocks = vs ∧ ∀ ops, b.Placed (runAll b.layout ops s).2) ∧
    ∀ {r : Registry T} {parts : List View} {vs : List (Layout (Registry T) T)},
      Grounded r (.blocks parts) → openAll r parts = .ok vs →
      (vs.map (·.size r)).sum < Index.limit →
      ∃ b, openBlocks? r (.blocks parts) = .ok (some b) ∧ b.blocks = vs ∧
        ∀ ops, b.Placed (runAll b.layout ops r).2 := by
  refine ⟨Blocks.placedAfter, fun {r parts vs} grounded opened word => ?_⟩
  obtain ⟨b, made, blocks, placed⟩ :=
    Blocks.placedAfter (HasShapes r.shapes) rfl (steadyParts grounded opened) word
  refine ⟨b, ?_, blocks, placed⟩
  simp only [openBlocks?, opened, made, bind, Except.bind, pure, Except.pure]

def gapsJoined : List View :=
  [.blocks [], .range (.base "left") 1 1, .blocks [], .base "right", .blocks []]

theorem groundedGaps : Grounded twoBases (.blocks gapsJoined) :=
  ⟨groundedTail.bases, groundedTail.once⟩

theorem blocksPlacedGaps :
    ∃ vs b, openAll twoBases gapsJoined = .ok vs ∧ Blocks.make vs twoBases = .ok b ∧
      openBlocks? twoBases (.blocks gapsJoined) = .ok (some b) ∧ b.offsets = [0, 0, 1, 1, 3, 3] ∧
      b.locate 0 = .ok (1, 0) ∧ b.locate 2 = .ok (3, 1) ∧
      ∀ ops, b.Placed (runAll b.layout ops twoBases).2 := by
  have steady := steadyParts groundedGaps rfl
  obtain ⟨b, made, -, placed⟩ := blocksPlaced.1 (HasShapes twoBases.shapes) rfl steady (by decide)
  obtain ⟨b', opened, -, -⟩ := blocksPlaced.2 groundedGaps rfl (by decide)
  cases made
  cases opened
  exact ⟨_, _, rfl, rfl, rfl, rfl, rfl, rfl, placed⟩

end View

end SignalVector
