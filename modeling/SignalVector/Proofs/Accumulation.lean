import SignalVector.Proofs.Chains
import SignalVector.Proofs.Interchange
import SignalVector.Proofs.Related

/-! Two ways to add a scaled vector: into a buffer, or to another vector. The buffer is given the
products as they come, with the scale on the left; the other vector is given sums from zero of the
products with the scale on the right. Sizes are compared in opposite directions. -/
namespace SignalVector

open Update

variable {σ τ T : Type} [Zero T] [One T] [Add T] [Mul T] [Neg T]

/- A vector `v` next to a receiver `w`, and a buffer that holds the elements of the receiver. -/
structure Layout.AccumulatesAlike (v : Layout σ T) (s : σ) (w : Layout τ T) (u : τ)
    (elements : τ → Array T) (alike : T → T → Prop) (scale : T) : Prop where
  fits : v.size s = w.size u → ∃ buffer u', v.scaleAndAddInto scale s (elements u) = .ok () buffer ∧
    w.apply (.addScaled scale (v.cells s)) u = .ok () u' ∧ Pointwise alike buffer (elements u')
  misfits : v.size s ≠ w.size u →
    v.scaleAndAddInto scale s (elements u) =
        .error (.refused (.sizeMismatch (v.size s) (w.size u))) (elements u) ∧
      w.apply (.addScaled scale (v.cells s)) u =
        .error (.refused (.sizeMismatch (w.size u) (v.size s))) u

section Laws

variable {alike : T → T → Prop} (laws : Interchange alike)

include laws

theorem Interchange.added {scale : T} {xs old : Array T} {x : Cells T} (reads : x.Reads xs)
    (same : xs.size = old.size) :
    Pointwise alike (Array.zipWith (fun old x => old + scale * x) old xs)
      (Link.addTo old (.addScaled scale x)) := by
  refine ⟨by simp [Link.addTo, same], fun i h h' => ?_⟩
  have inside : i < xs.size := by
    simp at h
    omega
  have item : x.item i = xs[i] := reads.item inside
  simp only [Link.addTo, Array.getElem_mapIdx, Array.getElem_zipWith, ← item]
  exact laws.accumulates old[i] scale (x.item i)

theorem Layout.Reaches.accumulatesAlike {v : Layout σ T} {w : Layout τ T} {inv : σ → Prop}
    {inv' : τ → Prop} {size size' : Nat} {elements : σ → Array T} {elements' : τ → Array T}
    (h : v.Reaches inv size elements) (h' : w.Reaches inv' size' elements') {s : σ} (hs : inv s)
    {u : τ} (hu : inv' u) (scale : T) : v.AccumulatesAlike s w u elements' alike scale := by
  have reads := h.reads s hs
  have into : v.scaleAndAddInto scale s = Flat.combine (fun old x => old + scale * x) (elements s) :=
    h.scaleAndAddInto scale s hs
  have sized : v.size s = (elements s).size := reads.size
  have sized' : w.size u = (elements' u).size := (h'.reads u hu).size
  constructor
  · intro same
    have fits : (elements s).size = (elements' u).size := sized.symm.trans (same.trans sized')
    have readable : ∀ x ∈ (Link.addScaled scale (v.cells s)).vectors, x.Readable :=
      List.forall_mem_singleton.mpr ⟨_, reads⟩
    obtain ⟨u', ran, -, changed⟩ := h'.applyFits readable
      (List.forall_mem_singleton.mpr (same.trans (h'.sizeAt hu))) hu
    refine ⟨_, u', into ▸ Flat.combineFits fits, ran, ?_⟩
    rw [changed]
    exact laws.added reads fits
  · intro other
    have misfit : (elements s).size ≠ (elements' u).size := fun fits =>
      other (sized.trans (fits.trans sized'.symm))
    constructor
    · rw [into, sized, sized', Flat.combineMisfit misfit]
    · exact Layout.addScaledMisfit (t := (scale, v.cells s)) rfl
        (List.find?_cons_of_pos (decide_eq_true other))

end Laws

def PathsAgree (T : Type) [Zero T] [One T] [Add T] [Mul T] [Neg T] (alike : T → T → Prop) : Prop :=
  (∀ (σ τ : Type) (v : Layout σ T) (w : Layout τ T) (inv : σ → Prop) (inv' : τ → Prop)
    (size size' : Nat) (elements : σ → Array T) (elements' : τ → Array T),
    v.Reaches inv size elements → w.Reaches inv' size' elements' →
    ∀ s u, inv s → inv' u → ∀ scale, v.AccumulatesAlike s w u elements' alike scale) ∧
  ∀ (r r' : Registry T) (view view' : View) (v w : Layout (Registry T) T),
    view.openIn r = .ok v → view.Grounded r → view'.openIn r' = .ok w → view'.Grounded r' →
    ∀ s u, s.HasShapes r.shapes → u.HasShapes r'.shapes →
    ∀ scale, v.AccumulatesAlike s w u view'.elements alike scale

theorem Interchange.pathsAgree {alike : T → T → Prop} (laws : Interchange alike) :
    PathsAgree T alike := by
  constructor
  · intro σ τ v w inv inv' size size' elements elements' h h' s u hs hu scale
    exact h.accumulatesAlike laws h' hs hu scale
  · intro r r' view view' v w opened grounded opened' grounded' s u hs hu scale
    obtain ⟨lawful, -⟩ := View.layoutLawful (View.openedSource opened) grounded
    obtain ⟨lawful', -⟩ := View.layoutLawful (View.openedSource opened') grounded'
    exact lawful.reaches.accumulatesAlike laws lawful'.reaches hs hu scale

/- Of exact numbers no more is asked than that products may be turned around and that zero is neutral
on the left; slots of dual numbers are sums, which are turned around as well. -/
theorem accumulationPathsAgree :
    (∀ (R : Type) [Zero R] [One R] [Add R] [Mul R] [Neg R] [BEq R] [Magnitude R],
      (∀ a b : R, a * b = b * a) → (∀ a : R, 0 + a = a) →
        PathsAgree R Eq ∧ PathsAgree (Expression R) (Expression.ValuesAlike Eq) ∧
        ((∀ a b : R, a + b = b + a) → ∀ n, PathsAgree (Dual R n) (Dual.SlotsAlike Eq))) ∧
      PathsAgree Float Binary64.Alike ∧
      PathsAgree (Expression Float) (Expression.ValuesAlike Binary64.Alike) ∧
      ∀ n, PathsAgree (Dual Float n) (Dual.SlotsAlike Binary64.Alike) := by
  refine ⟨?_, ?_⟩
  · intro R _ _ _ _ _ _ _ mul zero
    have laws : Interchange (Eq : R → R → Prop) := .equality mul zero
    have same : ∀ {x y : R}, x = y → (x == 0) = (y == 0) := fun equal => by rw [equal]
    exact ⟨laws.pathsAgree, (Expression.interchange laws same).pathsAgree,
      fun swap _ => (Dual.interchange laws swap).pathsAgree⟩
  · have swap : ∀ x y : Float, Binary64.Alike (x + y) (y + x) := fun x y =>
      .of (Binary64.addComm x y)
    exact ⟨Binary64.interchange.pathsAgree,
      (Expression.interchange Binary64.interchange Binary64.Alike.zero).pathsAgree,
      fun _ => (Dual.interchange Binary64.interchange swap).pathsAgree⟩

theorem accumulationPathsAgreeTail :
    (∃ buffer s', View.tailOpened.scaleAndAddInto 3 View.twoBases
        (View.tailJoined.elements View.twoBases) = .ok () buffer ∧
      View.tailOpened.apply (.addScaled 3 (View.tailOpened.cells View.twoBases)) View.twoBases =
        .ok () s' ∧
      Pointwise Binary64.Alike buffer (View.tailJoined.elements s')) ∧
    (Registry.layout "left").apply (.addScaled 3 (View.tailOpened.cells View.twoBases))
        View.twoBases =
      .error (.refused (.sizeMismatch 2 3)) View.twoBases := by
  have groundedLeft : (View.base "left").Grounded View.twoBases :=
    (View.groundedTail.part List.mem_cons_self).parent
  have own := accumulationPathsAgree.2.1.2 _ _ _ _ _ _ View.opensTail View.groundedTail
    View.opensTail View.groundedTail View.twoBases View.twoBases rfl rfl 3
  have other := accumulationPathsAgree.2.1.2 _ _ _ _ _ _ View.opensTail View.groundedTail
    (rfl : View.openIn View.twoBases (.base "left") = .ok (Registry.layout "left")) groundedLeft
    View.twoBases View.twoBases rfl rfl 3
  exact ⟨own.fits rfl, (other.misfits (by decide)).2⟩

end SignalVector
