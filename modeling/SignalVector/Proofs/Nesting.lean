import SignalVector.Proofs.Views

/-! Ranges of ranges. A range is accepted exactly if it ends within its parent, also where its end
would be no word, and ranges taken one of another are the one range of the outermost parent that
starts at the sum of their offsets. -/
namespace SignalVector

open Update

variable {σ T : Type}

namespace Range

structure Decided (parent : Layout σ T) (s : σ) (first length : Nat) : Prop where
  accepted : make parent s first length = .ok ⟨parent, first, length⟩ ↔
    first + length ≤ parent.size s
  refused : parent.size s < first + length →
    let last := min (first + max length 1 - 1) Index.largest
    make parent s first length = .error (.refused (.outOfRange last (parent.size s))) ∧
      parent.size s ≤ last

section Making

variable {parent : Layout σ T} {s : σ} {first length : Nat}

theorem makeFits (word : parent.size s < Index.limit) (fits : first + length ≤ parent.size s) :
    make parent s first length = .ok ⟨parent, first, length⟩ := by
  have stop : Index.add? first length = some (first + length) :=
    if_pos (Nat.lt_of_le_of_lt fits word)
  simp only [make, stop, if_pos fits]

/- The last index of an empty range is taken to be its first. -/
theorem makeMisfit (beyond : parent.size s < first + length) :
    make parent s first length = .error (.refused (.outOfRange
      (min (first + max length 1 - 1) Index.largest) (parent.size s))) := by
  have last : Index.saturatingAdd first (length - 1) =
      min (first + max length 1 - 1) Index.largest := by
    have same : first + (length - 1) = first + max length 1 - 1 := by omega
    rw [Index.saturatingAdd, same]
  unfold make Index.add?
  dsimp only
  rw [last]
  split
  · rename_i stop summed
    split at summed
    · cases summed
      exact if_neg (Nat.not_le.mpr beyond)
    · contradiction
  · rfl

theorem decided (word : parent.size s < Index.limit) (first length : Nat) :
    Decided parent s first length where
  accepted := ⟨fun made => (madeFits made).2.1, makeFits word⟩
  refused beyond := by
    have reached : parent.size s ≤ first + max length 1 - 1 := by omega
    exact ⟨makeMisfit beyond, Nat.le_min.mpr ⟨reached, Nat.le_pred_of_lt word⟩⟩

end Making

section Indices

variable {r : Range σ T} {index : Nat}

theorem getInside (inside : index < r.length) (word : r.first + r.length < Index.limit) (s : σ) :
    (r.access.cells s).get index = (r.parent.cells s).get (r.first + index) := by
  have add : Index.add r.first index = .ok (r.first + index) := if_pos (by omega)
  simp only [access, checkIndexInside inside, add, bind, Except.bind]

theorem getOutside (outside : r.length ≤ index) (s : σ) :
    (r.access.cells s).get index = .error (.refused (.outOfRange index r.length)) := by
  simp only [access, checkIndexOutside outside, bind, Except.bind]

theorem accessSame {r r' : Range σ T} (word : r.first + r.length < Index.limit)
    (word' : r'.first + r'.length < Index.limit) (length : r.length = r'.length)
    (same : ∀ index < r.length, ∀ s,
      (r.parent.cells s).get (r.first + index) = (r'.parent.cells s).get (r'.first + index) ∧
      ∀ f, r.parent.modify (r.first + index) f s = r'.parent.modify (r'.first + index) f s) :
    r.access = r'.access := by
  refine congrArg₂ (Access.mk · · fun _ => none) (funext fun s => ?_) ?_
  · refine congrArg₂ (Cells.mk · · none) length (funext fun index => ?_)
    by_cases inside : index < r.length
    · exact (getInside inside word s).trans
        ((same index inside s).1.trans (getInside (length ▸ inside) word' s).symm)
    · have outside : r.length ≤ index := Nat.not_lt.mp inside
      refine (getOutside outside s).trans (Eq.trans ?_ (getOutside (length ▸ outside) s).symm)
      rw [length]
  · funext index f s
    by_cases inside : index < r.length
    · exact (modifyInside inside word f s).trans
        (((same index inside s).2 f).trans (modifyInside (length ▸ inside) word' f s).symm)
    · have outside : r.length ≤ index := Nat.not_lt.mp inside
      refine (modifyOutside outside f s).trans
        (Eq.trans ?_ (modifyOutside (length ▸ outside) f s).symm)
      rw [length]

end Indices

variable [Zero T] [Add T] [Mul T]

theorem layoutTwice {parent : Layout σ T} {first first' length length' : Nat}
    (within : first' + length' ≤ length) (word : first + length < Index.limit) :
    (Range.mk (Range.mk parent first length).layout first' length').layout =
      (Range.mk parent (first + first') length').layout := by
  refine congrArg Access.toLayout (accessSame ?_ ?_ rfl fun index inside s => ?_)
  · dsimp only
    omega
  · dsimp only
    omega
  · have between : first' + index < length := by dsimp only at inside; omega
    have outer := getInside (r := ⟨parent, first, length⟩) between word s
    have outer' := fun f => modifyInside (r := ⟨parent, first, length⟩) between word f s
    simp only [← Nat.add_assoc] at outer outer'
    exact ⟨outer, outer'⟩

def nest (s : σ) : Layout σ T → List (Nat × Nat) → Except Failure (Layout σ T)
  | v, [] => .ok v
  | v, (first, length) :: inner => do
    let r ← make v s first length
    nest s r.layout inner

structure Composed (parent : Layout σ T) (s : σ) (total length : Nat) (v : Layout σ T) : Prop where
  fits : total + length ≤ parent.size s
  word : total + length < Index.limit
  direct : ∃ r, make parent s total length = .ok r ∧ r.layout = v
  size : ∀ s', v.size s' = length
  inside : ∀ s', ∀ index < length, (v.cells s').get index = (parent.cells s').get (total + index) ∧
    ∀ f, v.modify index f s' = parent.modify (total + index) f s'
  outside : ∀ s' index, length ≤ index →
    (v.cells s').get index = .error (.refused (.outOfRange index length)) ∧
      ∀ f, v.modify index f s' = .error (.refused (.outOfRange index length)) s'

theorem nestMade {outer : List (Nat × Nat)} {s : σ} {first length : Nat} {parent v : Layout σ T}
    (nested : nest s parent (outer ++ [(first, length)]) = .ok v) :
    v = (Range.mk parent ((outer.map Prod.fst).sum + first) length).layout ∧
      (outer.map Prod.fst).sum + first + length ≤ parent.size s ∧
      (outer.map Prod.fst).sum + first + length < Index.limit := by
  induction outer generalizing parent with
  | nil =>
    obtain ⟨r, made, whole⟩ := bindSucceeds nested
    cases whole
    obtain ⟨rfl, fits, word⟩ := madeFits made
    simpa using ⟨fits, word⟩
  | cons q outer ih =>
    obtain ⟨r, made, rest⟩ := bindSucceeds nested
    obtain ⟨rfl, fits, word⟩ := madeFits made
    obtain ⟨rfl, within, -⟩ := ih rest
    have inner : (outer.map Prod.fst).sum + first + length ≤ q.2 := within
    rw [List.map_cons, List.sum_cons, Nat.add_assoc q.1]
    exact ⟨layoutTwice inner word, by omega, by omega⟩

theorem nestComposed {outer : List (Nat × Nat)} {s : σ} {first length : Nat}
    {parent v : Layout σ T} (small : parent.size s < Index.limit)
    (nested : nest s parent (outer ++ [(first, length)]) = .ok v) :
    Composed parent s ((outer.map Prod.fst).sum + first) length v := by
  obtain ⟨rfl, fits, word⟩ := nestMade nested
  exact {
    fits := fits
    word := word
    direct := ⟨_, makeFits small fits, rfl⟩
    size := fun _ => rfl
    inside := fun s' _ inside =>
      ⟨getInside inside word s', fun f => modifyInside inside word f s'⟩
    outside := fun s' _ outside =>
      ⟨getOutside outside s', fun f => modifyOutside outside f s'⟩ }

end Range

namespace View

open Registry (HasShapes)

def nested (parent : View) (ranges : List (Nat × Nat)) : View :=
  ranges.foldl (fun view q => .range view q.1 q.2) parent

variable [Zero T] [Add T] [Mul T] {r : Registry T}

theorem opensNested (parent : View) (ranges : List (Nat × Nat)) :
    openIn r (parent.nested ranges) = openIn r parent >>= fun p => Range.nest r p ranges := by
  induction ranges generalizing parent with
  | nil => exact (bind_pure _).symm
  | cons q ranges ih =>
    change openIn r ((View.range parent q.1 q.2).nested ranges) = _
    rw [ih, openIn, bind_assoc]
    refine congrArg (openIn r parent >>= ·) (funext fun p => ?_)
    rw [bind_assoc]
    rfl

structure ShowsRange (r : Registry T) (parent : View) (total length : Nat)
    (v : Layout (Registry T) T) : Prop where
  opens : openIn r (.range parent total length) = .ok v
  reads : ∀ s : Registry T, s.HasShapes r.shapes → ∀ index < length,
    ∃ x, (parent.elements s)[total + index]? = some x ∧ (v.cells s).get index = .ok x
  writes : ∀ s : Registry T, s.HasShapes r.shapes → ∀ index < length, ∀ f,
    ∃ s', v.modify index f s = .ok () s' ∧ s'.HasShapes r.shapes ∧
      parent.elements s' = (parent.elements s).modify (total + index) f

theorem showsRange {parent : View} {p v : Layout (Registry T) T} {total length : Nat}
    (opened : openIn r parent = .ok p) (grounded : parent.Grounded r)
    (composed : Range.Composed p r total length v) : ShowsRange r parent total length v := by
  have source := openedSource opened
  obtain ⟨lawful, -⟩ := layoutLawful source grounded
  have within : ∀ s : Registry T, s.HasShapes r.shapes → ∀ index < length,
      total + index < (parent.elements s).size := by
    intro s hs index inside
    have fits := composed.fits
    rw [lawful.sized s hs, ← measured source]
    omega
  constructor
  · obtain ⟨g, made, rfl⟩ := composed.direct
    simp only [openIn, opened, made, bind, Except.bind, pure, Except.pure]
  · intro s hs index inside
    have there := within s hs index inside
    refine ⟨(parent.elements s)[total + index], Array.getElem?_eq_getElem there, ?_⟩
    rw [(composed.inside s index inside).1, (lawful.cells s hs).get, Cells.readSliceInside there]
  · intro s hs index inside f
    rw [(composed.inside s index inside).2 f]
    exact tracksRun (lawful.modify (total + index) f) hs
      (Flat.modifyInside f (within s hs index inside))

theorem rangesCompose :
    (∀ {σ : Type} (parent : Layout σ T) (s : σ), parent.size s < Index.limit →
      (∀ first length, Range.Decided parent s first length) ∧
      ∀ outer first length v, Range.nest s parent (outer ++ [(first, length)]) = .ok v →
        Range.Composed parent s ((outer.map Prod.fst).sum + first) length v) ∧
    ∀ {r : Registry T} {parent : View} {p : Layout (Registry T) T},
      openIn r parent = .ok p → parent.Grounded r →
      (∀ first length, Range.Decided p r first length ∧
        openIn r (.range parent first length) = Range.layout <$> Range.make p r first length) ∧
      ∀ outer first length v, openIn r (parent.nested (outer ++ [(first, length)])) = .ok v →
        Range.Composed p r ((outer.map Prod.fst).sum + first) length v ∧
          ShowsRange r parent ((outer.map Prod.fst).sum + first) length v := by
  refine ⟨fun parent s small => ⟨Range.decided small, fun _ _ _ _ => Range.nestComposed small⟩, ?_⟩
  intro r parent p opened grounded
  have small : p.size r < Index.limit := by
    rw [measured (openedSource opened)]
    exact (layoutLawful (openedSource opened) grounded).2
  refine ⟨fun first length => ⟨Range.decided small first length, ?_⟩, ?_⟩
  · simp only [openIn, opened, bind, Except.bind]
    cases Range.make p r first length <;> rfl
  · intro outer first length v nested
    rw [opensNested, opened] at nested
    have composed := Range.nestComposed small nested
    exact ⟨composed, showsRange opened grounded composed⟩

theorem rangesComposeTail :
    ∃ v, openIn twoBases (tailJoined.nested [(1, 2), (1, 1)]) = .ok v ∧
      openIn twoBases (.range tailJoined 2 1) = .ok v ∧ (v.cells twoBases).get 0 = .ok 4 ∧
      (v.cells twoBases).get 1 = .error (.refused (.outOfRange 1 1)) ∧
      Range.make tailOpened twoBases (2 ^ 64 - 1) 2 =
        .error (.refused (.outOfRange (2 ^ 64 - 1) 3)) := by
  obtain ⟨decided, nested⟩ := rangesCompose.2 opensTail groundedTail
  obtain ⟨composed, shows⟩ := nested [(1, 2)] 1 1 _ rfl
  obtain ⟨x, there, read⟩ := shows.reads twoBases rfl 0 (by decide)
  cases there
  exact ⟨_, rfl, shows.opens, read, (composed.outside twoBases 1 (by decide)).1,
    ((decided (2 ^ 64 - 1) 2).1.refused (by decide)).1⟩

end View

end SignalVector
