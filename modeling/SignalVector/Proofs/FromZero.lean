import SignalVector.Proofs.Addressing
import SignalVector.Proofs.Binary64
import SignalVector.Proofs.Chains

/-! Scaled additions to a vector that was just cleared. Adding the terms one after the other leaves
the same elements as adding all of them at once, to the last bit and the last node. -/
namespace SignalVector

open Update

variable {σ τ T : Type}

section Sums

variable [Zero T] [Add T] [Mul T]

def products (terms : List (T × Cells T)) (i : Nat) : List T :=
  terms.map fun t => t.2.item i * t.1

theorem sumAtOnce (terms : List (T × Cells T)) (i : Nat) :
    0 + sumOfTerms terms i = addedAtOnce (products terms i) := by
  rw [addedAtOnce, products, List.foldl_map]
  rfl

variable [One T] [Neg T]

theorem sumInTurn (terms : List (T × Cells T)) (i : Nat) :
    (terms.map fun t => Link.addScaled t.1 t.2).foldl
      (fun sum link => sum + sumOfTerms link.terms i) 0 = addedInTurn (products terms i) := by
  rw [addedInTurn, products, List.foldl_map, List.foldl_map]
  rfl

theorem addedAt (links : List (Link T)) (xs : Array T) :
    links.foldl Link.addTo xs =
      xs.mapIdx fun i x => links.foldl (fun sum link => sum + sumOfTerms link.terms i) x := by
  induction links generalizing xs with
  | nil =>
    apply Array.ext <;> simp
  | cons link links ih =>
    rw [List.foldl_cons, ih]
    apply Array.ext <;> simp [Link.addTo, Link.incrementOfTerms]

def Layout.AddsAlike (v : Layout σ T) (inv : σ → Prop) (shown : σ → τ) : Prop :=
  ∀ s, inv s → ∀ terms : List (T × Cells T), (∀ t ∈ terms, t.2.Readable ∧ t.2.size = v.size s) →
    ∃ zeroed chained added, v.clear s = .ok () zeroed ∧
      v.chain (terms.map fun t => .addScaled t.1 t.2) zeroed = .ok () chained ∧
      v.apply (.addScaledAll terms) zeroed = .ok () added ∧ shown chained = shown added

theorem Layout.Reaches.addsFromZero {v : Layout σ T} {inv : σ → Prop} {size : Nat}
    {elements : σ → Array T} (h : v.Reaches inv size elements)
    (alike : ∀ terms : List T, addedInTurn terms = addedAtOnce terms) {s : σ} (hs : inv s)
    {terms : List (T × Cells T)} (fits : ∀ t ∈ terms, t.2.Readable ∧ t.2.size = size) :
    ∃ zeroed chained added, v.clear s = .ok () zeroed ∧ inv zeroed ∧
      v.chain (terms.map fun t => .addScaled t.1 t.2) zeroed = .ok () chained ∧ inv chained ∧
      v.apply (.addScaledAll terms) zeroed = .ok () added ∧ inv added ∧
      elements chained = elements added := by
  obtain ⟨zeroed, cleared, hz, zeros⟩ := tracksRun h.clear hs rfl
  have each : ∀ link ∈ terms.map fun t => Link.addScaled t.1 t.2, ∀ x ∈ link.vectors,
      x.Readable ∧ x.size = size := by
    intro link member x there
    obtain ⟨t', listed, rfl⟩ := List.mem_map.mp member
    cases List.mem_singleton.mp there
    exact fits t' listed
  obtain ⟨chained, ran, hc, links⟩ := h.chainFits (fun link member x there => (each link member x there).1)
    (fun link member x there => (each link member x there).2) hz
  have all : ∀ x ∈ (Link.addScaledAll terms).vectors, x.Readable ∧ x.size = size :=
    List.forall_mem_map.mpr fits
  obtain ⟨added, once, ha, whole⟩ := h.applyFits (fun x there => (all x there).1)
    (fun x there => (all x there).2) hz
  refine ⟨zeroed, chained, added, cleared, hz, ran, hc, once, ha, ?_⟩
  rw [links, whole, addedAt, zeros]
  apply Array.ext
  · simp [Link.addTo]
  · intro i _ _
    simp only [Link.addTo, Array.getElem_mapIdx, Array.getElem_replicate]
    rw [sumInTurn, alike]
    exact (sumAtOnce terms i).symm

def ChainsAgree (T : Type) [Zero T] [One T] [Add T] [Mul T] [Neg T] : Prop :=
  (∀ (σ : Type) (v : Layout σ T) (inv : σ → Prop) (size : Nat) (elements : σ → Array T),
    v.Reaches inv size elements → v.AddsAlike inv elements) ∧
  ∀ (r : Registry T) (view : View) (v : Layout (Registry T) T), view.openIn r = .ok v →
    view.Grounded r → v.AddsAlike (Registry.HasShapes r.shapes) fun s p => Registry.cell p s

theorem chainsAgree (alike : ∀ terms : List T, addedInTurn terms = addedAtOnce terms) :
    ChainsAgree T := by
  constructor
  · intro σ v inv size elements h s hs terms fits
    have sized : v.size s = size := h.sizeAt hs
    rw [sized] at fits
    obtain ⟨zeroed, chained, added, cleared, -, ran, -, once, -, same⟩ := h.addsFromZero alike hs fits
    exact ⟨zeroed, chained, added, cleared, ran, once, same⟩
  · intro r view v opening grounded s hs terms fits
    have opened := View.openedSource opening
    obtain ⟨lawful, -⟩ := View.layoutLawful opened grounded
    rw [lawful.sizeAt hs] at fits
    obtain ⟨zeroed, chained, added, cleared, hz, ran, hc, once, ha, same⟩ :=
      lawful.reaches.addsFromZero alike hs fits
    refine ⟨zeroed, chained, added, cleared, ran, once, funext fun p => ?_⟩
    change Registry.cell p chained = Registry.cell p added
    by_cases shown : p ∈ view.places r
    · exact View.shownSame hc ha same shown
    · have left := View.leavesOtherPlaces opened grounded shown
      have still := (left.chain (terms.map fun t => .addScaled t.1 t.2) zeroed hz).2
      have still' := (left.addScaledAll terms zeroed hz).2
      change v.addScaledAll terms zeroed = _ at once
      rw [ran] at still
      rw [once] at still'
      exact still.trans still'.symm

end Sums

/- A dual number is compared in its value and in every slot, and an expression as a tree. -/
theorem chainsFromZero {R : Type} [Zero R] [One R] [Add R] [Mul R] [Neg R] [BEq R] {negative : R}
    (laws : SignedZero negative) :
    ChainsAgree R ∧ (∀ n, ChainsAgree (Dual R n)) ∧ ChainsAgree (Expression R) :=
  ⟨chainsAgree laws.addedAlike, fun _ => chainsAgree (Dual.addedAlike laws),
    chainsAgree (Expression.signedZero laws).addedAlike⟩

theorem chainsFromZeroTail :
    ChainsAgree Float ∧ (∀ n, ChainsAgree (Dual Float n)) ∧ ChainsAgree (Expression Float) ∧
      ∃ zeroed chained added, View.tailOpened.clear View.twoBases = .ok () zeroed ∧
        View.tailOpened.chain [.addScaled (-0.5) (View.tailOpened.cells View.twoBases),
          .addScaled 3 (View.tailOpened.cells View.twoBases)] zeroed = .ok () chained ∧
        View.tailOpened.apply (.addScaledAll [(-0.5, View.tailOpened.cells View.twoBases),
          (3, View.tailOpened.cells View.twoBases)]) zeroed = .ok () added ∧
        ∀ p, Registry.cell p chained = Registry.cell p added := by
  obtain ⟨numbers, duals, expressions⟩ := chainsFromZero Binary64.signedZero
  refine ⟨numbers, duals, expressions, ?_⟩
  have fits : ∀ t ∈ [(-0.5, View.tailOpened.cells View.twoBases),
      ((3 : Float), View.tailOpened.cells View.twoBases)],
      t.2.Readable ∧ t.2.size = View.tailOpened.size View.twoBases := by
    intro t member
    have same : t.2 = View.tailOpened.cells View.twoBases := by
      rcases List.mem_cons.mp member with rfl | last
      · rfl
      · exact congrArg Prod.snd (List.mem_singleton.mp last)
    rw [same]
    exact ⟨(View.coherent View.showsTail).readable, rfl⟩
  obtain ⟨zeroed, chained, added, cleared, ran, once, same⟩ :=
    numbers.2 _ _ _ View.opensTail View.groundedTail _ rfl _ fits
  exact ⟨zeroed, chained, added, cleared, ran, once, fun p => congrFun same p⟩

end SignalVector
