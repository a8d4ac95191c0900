import SignalVector.Proofs.Addressing
import SignalVector.Proofs.Related

/-! Views that are opened again. Opening asks for nothing but sizes, so a view opens after any calls
as it did before them, or is refused as it was; and what calls through it do is decided by the
elements that it shows, whatever else is stored. -/
namespace SignalVector.View

open Registry (HasShapes cell)
open Operation (runAll)

variable {T T' : Type}

section Shapes

variable {r : Registry T} {r' : Registry T'}

theorem placesSame (same : r'.shapes = r.shapes) (view : View) : view.places r' = view.places r := by
  induction view with
  | base name =>
    simp only [places, Registry.valuesOf, Registry.sizeOfBase, same]
  | range parent first length ih => simp only [places, ih]
  | blocks parts ih =>
    simp only [places]
    induction parts with
    | nil => rfl
    | cons view views ihViews =>
      simp only [placesAll, ih view List.mem_cons_self,
        ihViews fun w member => ih w (List.mem_cons_of_mem view member)]

theorem Grounded.sameShapes {view : View} (grounded : view.Grounded r)
    (same : r'.shapes = r.shapes) : view.Grounded r' where
  bases name member := by
    obtain ⟨b, found, small⟩ := grounded.bases name member
    have shape : r'.shapes name = some b.shape :=
      (congrFun same name).trans (congrArg (Option.map Base.shape) found)
    obtain ⟨b', found', alike⟩ := Option.map_eq_some_iff.mp shape
    have sized : b'.values.size = b.values.size :=
      (Base.sizeOfShape alike).trans (Base.sizeOfShape rfl).symm
    exact ⟨b', found', sized.symm ▸ small⟩
  once := grounded.once

variable [Zero T] [Add T] [Mul T] [Zero T'] [Add T'] [Mul T']

theorem rangesMatched {p : Layout (Registry T) T} {p' : Layout (Registry T') T'}
    (sizes : p.size r = p'.size r') (first length : Nat) :
    Matched (fun g g' => g.layout.size r = g'.layout.size r') (Range.make p r first length)
      (Range.make p' r' first length) := by
  simp only [Range.make, sizes]
  cases Index.add? first length with
  | none => exact .error _
  | some stop =>
    dsimp only
    split
    · exact .ok rfl
    · exact .error _

theorem blocksMatched {vs : List (Layout (Registry T) T)} {vs' : List (Layout (Registry T') T')}
    (sizes : vs.map (·.size r) = vs'.map (·.size r')) :
    Matched (fun b b' => b.layout.size r = b'.layout.size r') (Blocks.make vs r)
      (Blocks.make vs' r') := by
  simp only [Blocks.make, sizes]
  cases Blocks.offsetsFrom 0 (vs'.map (·.size r')) with
  | error e => exact .error e
  | ok offsets => exact .ok rfl

theorem allMatched {parts : List View} (each : ∀ view ∈ parts,
    Matched (fun v v' => v.size r = v'.size r') (openIn r view) (openIn r' view)) :
    Matched (fun vs vs' => vs.map (·.size r) = vs'.map (·.size r')) (openAll r parts)
      (openAll r' parts) := by
  induction parts with
  | nil => exact .ok rfl
  | cons view views ih =>
    have rest := ih fun w member => each w (List.mem_cons_of_mem view member)
    refine (each view List.mem_cons_self).bind fun v v' here => rest.bind fun vs vs' there => ?_
    exact .ok (congrArg₂ List.cons here there)

theorem opensMatched (same : r'.shapes = r.shapes) (view : View) :
    Matched (fun v v' => v.size r = v'.size r') (openIn r view) (openIn r' view) := by
  induction view with
  | base name =>
    refine .ok ?_
    have sized := (Base.cellsHold (r.base name)).size
    have sized' := (Base.cellsHold (r'.base name)).size
    rw [Registry.sizeOfBase, ← same, ← Registry.sizeOfBase] at sized
    exact sized.trans sized'.symm
  | range parent first length ih =>
    refine ih.bind fun p p' sizes => (rangesMatched sizes first length).bind fun g g' same => ?_
    exact .ok same
  | blocks parts ih =>
    have all := allMatched ih
    exact all.bind fun vs vs' sizes => (blocksMatched sizes).bind fun b b' same => .ok same

def addressed (r : Registry T) (view : View) : List (String × Nat) :=
  match openIn r view with
  | .ok _ => view.places r
  | .error _ => []

theorem addressedSame (same : r'.shapes = r.shapes) (view : View) :
    view.addressed r' = view.addressed r := by
  rcases (opensMatched same view).either with ⟨e, here, here'⟩ | ⟨v, v', here, here', -⟩
  · simp only [addressed, here, here']
  · simp only [addressed, here, here', placesSame same]

end Shapes

section Calls

variable [Zero T] [One T] [Add T] [Mul T] [Neg T] [Magnitude T] {r s : Registry T} {view : View}
  {v : Layout (Registry T) T} {ops : List (Operation T)}

def calls (view : View) (ops : List (Operation T)) (r : Registry T) :
    Except Failure (List (Outcome T)) × Registry T :=
  match openIn r view with
  | .ok v => (.ok (runAll v ops r).1, (runAll v ops r).2)
  | .error e => (.error e, r)

theorem callsOpened (opened : openIn r view = .ok v) (ops : List (Operation T)) :
    view.calls ops r = (.ok (runAll v ops r).1, (runAll v ops r).2) := by
  simp only [calls, opened]

theorem callsRefused {e : Failure} (refused : openIn r view = .error e) (ops : List (Operation T)) :
    view.calls ops r = (.error e, r) := by
  simp only [calls, refused]

theorem keepsShapes (opened : Opened r view v) (grounded : view.Grounded r) (ops : List (Operation T))
    (hs : s.HasShapes r.shapes) : (runAll v ops s).2.HasShapes r.shapes :=
  have leaves : v.Leaves (HasShapes r.shapes) fun _ => () :=
    layoutLeaves opened grounded fun _ _ _ _ => rfl
  (Operation.runAllLeaves leaves ops hs).1

theorem callsKeepShapes (grounded : view.Grounded r) (ops : List (Operation T)) :
    (view.calls ops r).2.shapes = r.shapes := by
  cases opening : openIn r view with
  | error e => rw [callsRefused opening]
  | ok v =>
    rw [callsOpened opening]
    exact keepsShapes (openedSource opening) grounded ops rfl

theorem callsLeave (grounded : view.Grounded r) (ops : List (Operation T)) {p : String × Nat}
    (other : p ∉ view.addressed r) : cell p (view.calls ops r).2 = cell p r := by
  cases opening : openIn r view with
  | error e => rw [callsRefused opening]
  | ok v =>
    simp only [addressed, opening] at other
    rw [callsOpened opening]
    exact (Operation.runAllLeaves (leavesOtherPlaces (openedSource opening) grounded other) ops rfl).2

theorem callsLocal {r' : Registry T} (same : r'.shapes = r.shapes) (grounded : view.Grounded r)
    (cells : ∀ p ∈ view.addressed r, cell p r' = cell p r)
    (shows : ∀ op ∈ ops, ∀ c ∈ op.operands, Shows c) :
    (view.calls ops r').1 = (view.calls ops r).1 ∧
      ∀ p ∈ view.addressed r, cell p (view.calls ops r').2 = cell p (view.calls ops r).2 := by
  rcases (opensMatched same view).either with ⟨e, here, here'⟩ | ⟨v, v', here, here', -⟩
  · rw [callsRefused here, callsRefused here']
    exact ⟨rfl, cells⟩
  · simp only [addressed, here] at cells ⊢
    rw [callsOpened here, callsOpened here']
    obtain ⟨lawful, small⟩ := layoutLawful (openedSource here) grounded
    obtain ⟨lawful', small'⟩ := layoutLawful (openedSource here') (grounded.sameShapes same)
    have coherent := fun op member c there => View.coherent (shows op member c there)
    obtain ⟨outcomes, shown, kept⟩ := Operation.runAllAgrees lawful small ops coherent rfl
    obtain ⟨outcomes', shown', kept'⟩ := Operation.runAllAgrees lawful' small' ops coherent rfl
    rw [elementsKept same rfl cells] at outcomes' shown'
    refine ⟨congrArg Except.ok (outcomes'.trans outcomes.symm), fun p member => ?_⟩
    exact shownSame (kept'.trans same) kept (shown'.trans shown.symm) member

end Calls

end SignalVector.View
