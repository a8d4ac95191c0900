import SignalVector.Proofs.FromZero
import SignalVector.Proofs.Readings
import SignalVector.Proofs.ScalarChange

/-! Scaled addition as an action of lists of terms on vectors. The terms of a list can be added in
parts and in any order, and terms with their scales negated take back what was added. -/
namespace SignalVector

open Update

variable {σ ι T A : Type}

section Operands

variable [Zero T]

structure Layout.Takes (v : Layout σ T) (known : T → Prop) (s : σ) (x : Cells T) : Prop where
  readable : x.Readable
  size : x.size = v.size s
  items : ∀ i < v.size s, known (x.item i)

theorem Layout.Takes.imp {v : Layout σ T} {known known' : T → Prop} {s : σ} {x : Cells T}
    (takes : v.Takes known s x) (weaker : ∀ y, known y → known' y) : v.Takes known' s x :=
  ⟨takes.readable, takes.size, fun i inside => weaker _ (takes.items i inside)⟩

def Layout.TakesAll (v : Layout σ T) (known : T → Prop) (s : σ) (terms : List (T × Cells T)) : Prop :=
  ∀ t ∈ terms, known t.1 ∧ v.Takes known s t.2

end Operands

variable [Zero T] [One T] [Add T] [Mul T] [Neg T]

def Layout.EndsAlike (v : Layout σ T) (read : T → Option A) (shown : σ → ι → Option T) (s : σ)
    (links links' : List (Link T)) : Prop :=
  ∃ s' s'', v.chain links s = .ok () s' ∧ v.chain links' s = .ok () s'' ∧
    ∀ k, (shown s' k).map read = (shown s'' k).map read

/- What is undone is compared with the empty chain, which leaves the state as it is. -/
structure Layout.ActsAdditively (v : Layout σ T) (known : T → Prop) (read : T → Option A)
    (shown : σ → ι → Option T) (s : σ) : Prop where
  appends : ∀ P Q : List (T × Cells T), v.TakesAll known s (P ++ Q) →
    v.EndsAlike read shown s [.addScaledAll (P ++ Q)] [.addScaledAll P, .addScaledAll Q]
  permutes : ∀ P Q : List (T × Cells T), P.Perm Q → v.TakesAll known s P →
    v.EndsAlike read shown s [.addScaledAll P] [.addScaledAll Q]
  undoes : ∀ P : List (T × Cells T), v.TakesAll known s P →
    v.EndsAlike read shown s [.addScaledAll P, .addScaledAll (negated P)] []
  cancels : ∀ x : Cells T, v.Takes known s x → v.EndsAlike read shown s [.add x, .subtract x] []

section Totals

variable [CommRing A] {read : T → Option A}

def Layout.TotalsDecide (v : Layout σ T) (read : T → Option A) (shown : σ → ι → Option T) (s : σ) :
    Prop :=
  ∀ links links' : List (Link T),
    (∀ link ∈ links, v.TakesAll (Valued read) s link.terms) →
    (∀ link ∈ links', v.TakesAll (Valued read) s link.terms) →
    (∀ i, totalChain read links i = totalChain read links' i) →
    v.EndsAlike read shown s links links'

theorem Layout.TotalsDecide.acts {v : Layout σ T} {shown : σ → ι → Option T} {s : σ}
    (decide : v.TotalsDecide read shown s) (laws : Reading read) {known : T → Prop}
    (valued : ∀ x, known x → Valued read x) : v.ActsAdditively known read shown s := by
  have all : ∀ {P : List (T × Cells T)}, v.TakesAll known s P → v.TakesAll (Valued read) s P :=
    fun takes t member => ⟨valued _ (takes t member).1, (takes t member).2.imp valued⟩
  have undoes : ∀ P : List (T × Cells T), v.TakesAll (Valued read) s P →
      v.EndsAlike read shown s [.addScaledAll P, .addScaledAll (negated P)] [] := by
    intro P takes
    have back : v.TakesAll (Valued read) s (negated P) := by
      refine List.forall_mem_map.mpr fun t member => ?_
      obtain ⟨scale, operand⟩ := takes t member
      exact ⟨⟨_, laws.neg scale.same⟩, operand⟩
    refine decide _ _ (List.forall_mem_cons.mpr ⟨takes, List.forall_mem_singleton.mpr back⟩)
      nofun fun i => ?_
    simp [totalChain, Link.terms, laws.totalNegated fun t member => (takes t member).1]
  constructor
  · intro P Q takes
    have whole := all takes
    have parts := List.forall_mem_append.mp whole
    refine decide _ _ (List.forall_mem_singleton.mpr whole)
      (List.forall_mem_cons.mpr ⟨parts.1, List.forall_mem_singleton.mpr parts.2⟩) fun i => ?_
    simp [totalChain, Link.terms, totalAppend]
  · intro P Q same takes
    have other : v.TakesAll (Valued read) s Q := fun t member => all takes t (same.mem_iff.mpr member)
    refine decide _ _ (List.forall_mem_singleton.mpr (all takes))
      (List.forall_mem_singleton.mpr other) fun i => ?_
    simp [totalChain, Link.terms, totalPerm same]
  · exact fun P takes => undoes P (all takes)
  · intro x takes
    exact undoes [(1, x)] (List.forall_mem_singleton.mpr ⟨⟨1, laws.one⟩, takes.imp valued⟩)

namespace Layout.Reaches

variable {v : Layout σ T} {inv : σ → Prop} {size : Nat} {elements : σ → Array T}

theorem chainRead (h : v.Reaches inv size elements) (laws : Reading read) {s : σ} (hs : inv s)
    (start : ∀ i < v.size s, Valued read ((v.cells s).item i)) {links : List (Link T)}
    (takes : ∀ link ∈ links, v.TakesAll (Valued read) s link.terms) :
    ∃ s', v.chain links s = .ok () s' ∧ inv s' ∧ ∀ i : Nat, (elements s')[i]?.map read =
      (elements s)[i]?.map fun x => some (worth read x + totalChain read links i) := by
  have sized : v.size s = size := h.sizeAt hs
  obtain ⟨s', ran, kept, changed⟩ := h.chainFits
    (fun link member => Link.eachVector.mpr fun t there => (takes link member t there).2.readable)
    (fun link member => Link.eachVector.mpr fun t there =>
      (takes link member t there).2.size.trans sized) hs
  refine ⟨s', ran, kept, fun i => ?_⟩
  rw [changed, addedAt, Array.getElem?_mapIdx, Option.map_map]
  cases found : (elements s)[i]? with
  | none => rfl
  | some x =>
    obtain ⟨inside, rfl⟩ := Array.getElem?_eq_some_iff.mp found
    have within : i < v.size s := sized.symm ▸ h.sized s hs ▸ inside
    have here := start i within
    rw [(h.reads s hs).item inside] at here
    exact congrArg some (laws.chain here.same fun link member t there =>
      ⟨(takes link member t there).1, (takes link member t there).2.items i within⟩)

theorem chainsRead (h : v.Reaches inv size elements) (laws : Reading read) {s : σ} (hs : inv s)
    (start : ∀ i < v.size s, Valued read ((v.cells s).item i)) {links links' : List (Link T)}
    (takes : ∀ link ∈ links, v.TakesAll (Valued read) s link.terms)
    (takes' : ∀ link ∈ links', v.TakesAll (Valued read) s link.terms)
    (totals : ∀ i, totalChain read links i = totalChain read links' i) :
    ∃ s' s'', v.chain links s = .ok () s' ∧ inv s' ∧ v.chain links' s = .ok () s'' ∧ inv s'' ∧
      ∀ i : Nat, (elements s')[i]?.map read = (elements s'')[i]?.map read := by
  obtain ⟨s', ran, kept, changed⟩ := h.chainRead laws hs start takes
  obtain ⟨s'', ran', kept', changed'⟩ := h.chainRead laws hs start takes'
  refine ⟨s', s'', ran, kept, ran', kept', fun i => ?_⟩
  rw [changed, changed', totals]

theorem totalsDecide (h : v.Reaches inv size elements) (laws : Reading read) {s : σ} (hs : inv s)
    (start : ∀ i < v.size s, Valued read ((v.cells s).item i)) :
    v.TotalsDecide read (fun s (i : Nat) => (elements s)[i]?) s := by
  intro links links' takes takes' totals
  obtain ⟨s', s'', ran, -, ran', -, same⟩ := h.chainsRead laws hs start takes takes' totals
  exact ⟨s', s'', ran, ran', same⟩

end Layout.Reaches

theorem View.totalsDecide {r : Registry T} {view : View} {v : Layout (Registry T) T}
    (opened : Opened r view v) (grounded : view.Grounded r) (laws : Reading read) {s : Registry T}
    (hs : s.HasShapes r.shapes) (start : ∀ i < v.size s, Valued read ((v.cells s).item i)) :
    v.TotalsDecide read (fun s p => Registry.cell p s) s := by
  intro links links' takes takes' totals
  obtain ⟨lawful, -⟩ := layoutLawful opened grounded
  obtain ⟨s', s'', ran, hs', ran', hs'', same⟩ :=
    lawful.reaches.chainsRead laws hs start takes takes' totals
  refine ⟨s', s'', ran, ran', fun p => ?_⟩
  change (Registry.cell p s').map read = (Registry.cell p s'').map read
  by_cases shown : p ∈ view.places r
  · obtain ⟨i, placed⟩ := List.mem_iff_getElem?.mp shown
    rw [← elementAt hs' placed, ← elementAt hs'' placed]
    exact same i
  · have left := leavesOtherPlaces opened grounded shown
    have still := (left.chain links s hs).2
    have still' := (left.chain links' s hs).2
    rw [ran] at still
    rw [ran'] at still'
    exact congrArg (Option.map read) (still.trans still'.symm)

end Totals

def ScaledAdditionActs (T : Type) [Zero T] [One T] [Add T] [Mul T] [Neg T] (known : T → Prop)
    (read : T → Option A) : Prop :=
  (∀ (σ : Type) (v : Layout σ T) (inv : σ → Prop) (size : Nat) (elements : σ → Array T),
    v.Reaches inv size elements → ∀ s, inv s → (∀ i < v.size s, known ((v.cells s).item i)) →
    v.ActsAdditively known read (fun s (i : Nat) => (elements s)[i]?) s) ∧
  ∀ (r : Registry T) (view : View) (v : Layout (Registry T) T), view.openIn r = .ok v →
    view.Grounded r → ∀ s, s.HasShapes r.shapes → (∀ i < v.size s, known ((v.cells s).item i)) →
    v.ActsAdditively known read (fun s p => Registry.cell p s) s

theorem Reading.actsEverywhere [CommRing A] {read : T → Option A} (laws : Reading read)
    {known : T → Prop} (valued : ∀ x, known x → Valued read x) :
    ScaledAdditionActs T known read := by
  constructor
  · intro σ v inv size elements h s hs start
    exact (h.totalsDecide laws hs fun i inside => valued _ (start i inside)).acts laws valued
  · intro r view v opened grounded s hs start
    exact (View.totalsDecide (View.openedSource opened) grounded laws hs fun i inside =>
      valued _ (start i inside)).acts laws valued

/- Numbers and dual numbers are compared as they are, expressions by what they stand for. -/
theorem scaledAdditionActs {R : Type} [CommRing R] [Magnitude R] [BEq R] [LawfulBEq R] :
    ScaledAdditionActs R (fun _ => True) some ∧
      (∀ n, ScaledAdditionActs (Dual R n) (fun _ => True) some) ∧
      ∀ env, ScaledAdditionActs (Expression R) (Expression.Bound env) (Expression.evaluate env) :=
  ⟨ringReading.actsEverywhere fun x _ => ⟨x, rfl⟩,
    fun _ => ringReading.actsEverywhere fun x _ => ⟨x, rfl⟩,
    fun env => (Expression.reading env).actsEverywhere fun _ => Expression.hasValue⟩

theorem scaledAdditionActsLast :
    letI : Magnitude Int := ⟨fun a => |a|, Max.max⟩
    let symbols := View.signals.map (Expression.symbol (R := Int))
    let x : Cells (Expression Int) := .ofArray #[.symbol "p", .constant 3]
    let env : String → Option Int := fun _ => some 2
    ∃ s', View.lastOpened.chain [.add x, .subtract x] symbols = .ok () s' ∧
      ∀ p, (Registry.cell p s').map (Expression.evaluate env) =
        (Registry.cell p symbols).map (Expression.evaluate env) := by
  let numbers : Magnitude Int := ⟨fun a => |a|, Max.max⟩
  intro symbols x env
  have bound : ∀ e : Expression Int, e.Bound env := fun _ _ _ => ⟨2, rfl⟩
  have grounded : View.lastTwo.Grounded symbols :=
    View.groundedSignals.sameShapes (Registry.mapShapes _ View.signals)
  have acts := (scaledAdditionActs.2.2 env).2 _ _ _ (View.opensLast Expression.symbol) grounded
    symbols rfl fun i _ => bound _
  have takes : View.lastOpened.Takes (Expression.Bound env) symbols x :=
    ⟨⟨_, (Cells.holdsOfArray _).reads⟩, rfl, fun i _ => bound _⟩
  obtain ⟨s', _, ran, ⟨⟩, same⟩ := acts.cancels x takes
  exact ⟨s', ran, same⟩

end SignalVector
