import SignalVector.Proofs.Views

/-! Chains of scaled additions. A link whose operands all have the size of the receiver is added as
a whole, and the first link that has another operand ends the chain before it changes anything. -/
namespace SignalVector

open Update

variable {σ T : Type}

section Links

def Link.Fits (size : Nat) (link : Link T) : Prop := ∀ x ∈ link.vectors, x.size = size

variable [Zero T] [One T] [Add T] [Mul T] [Neg T]

def Link.addTo (xs : Array T) (link : Link T) : Array T :=
  xs.mapIdx fun i old => old + link.increment i

omit [Zero T] [Add T] [Mul T] in
theorem Link.misfit {size : Nat} {link : Link T} (other : ¬ link.Fits size) :
    ∃ t, link.terms.find? (fun t => t.2.size ≠ size) = some t ∧
      link.vectors.find? (fun x => x.size ≠ size) = some t.2 := by
  obtain ⟨t, found⟩ := Operands.misfit fun fits => other (Link.eachVector.mpr fits)
  refine ⟨t, found, ?_⟩
  rw [← link.vectorsOfTerms, List.find?_map]
  exact congrArg (Option.map Prod.snd) found

namespace Layout.Reaches

variable {v : Layout σ T} {inv : σ → Prop} {size : Nat} {elements : σ → Array T}

theorem applyFits (h : v.Reaches inv size elements) {link : Link T}
    (readable : ∀ x ∈ link.vectors, x.Readable) (fits : link.Fits size) {s : σ} (hs : inv s) :
    ∃ s', v.apply link s = .ok () s' ∧ inv s' ∧ elements s' = link.addTo (elements s) := by
  have sized := Link.eachVector.mp fits
  have added := h.accumulate ⟨size, link.terms, sized⟩ rfl (Link.eachVector.mp readable)
  obtain ⟨s', run, kept, changed⟩ := tracksRun added hs rfl
  simp only [link.incrementOfTerms] at changed
  exact ⟨s', (Layout.addScaledFits (h.sizeAt hs) sized).trans run, kept, changed⟩

theorem applyIff (h : v.Reaches inv size elements) {link : Link T}
    (readable : ∀ x ∈ link.vectors, x.Readable) {s : σ} (hs : inv s) :
    (∃ s', v.apply link s = .ok () s') ↔ link.Fits size := by
  constructor
  · rintro ⟨s', run⟩
    by_contra other
    obtain ⟨t, found, -⟩ := Link.misfit other
    rw [Layout.apply, Layout.addScaledMisfit (h.sizeAt hs) found] at run
    contradiction
  · intro fits
    obtain ⟨s', run, -⟩ := h.applyFits readable fits hs
    exact ⟨s', run⟩

/- By induction on the links: what fits is added, and the first link that does not fit decides. -/
theorem chainStops (h : v.Reaches inv size elements) {links : List (Link T)}
    (readable : ∀ link ∈ links, ∀ x ∈ link.vectors, x.Readable) {s : σ} (hs : inv s) :
    ∃ good rest s', links = good ++ rest ∧ (∀ link ∈ good, link.Fits size) ∧
      v.chain good s = .ok () s' ∧ inv s' ∧ elements s' = good.foldl Link.addTo (elements s) ∧
      (rest = [] ∧ v.chain links s = .ok () s' ∨
        ∃ bad later x, rest = bad :: later ∧
          bad.vectors.find? (fun x => x.size ≠ size) = some x ∧
          v.chain links s = .error (.refused (.sizeMismatch size x.size)) s') := by
  induction links generalizing s with
  | nil => exact ⟨[], [], s, rfl, fun _ member => (nomatch member), rfl, hs, rfl, .inl ⟨rfl, rfl⟩⟩
  | cons link links ih =>
    by_cases fits : link.Fits size
    · obtain ⟨s₁, run, kept, changed⟩ := h.applyFits (readable link List.mem_cons_self) fits hs
      obtain ⟨good, rest, s', rfl, all, done, kept', added, ends⟩ :=
        ih (fun link' member => readable link' (List.mem_cons_of_mem link member)) kept
      refine ⟨link :: good, rest, s', rfl, List.forall_mem_cons.mpr ⟨fits, all⟩,
        (forMCons good run).trans done, kept', ?_, ?_⟩
      · rw [added, changed]
        rfl
      · have onward : v.chain (link :: (good ++ rest)) s = v.chain (good ++ rest) s₁ :=
          forMCons (good ++ rest) run
        simpa only [List.cons_append, onward] using ends
    · obtain ⟨t, found, first⟩ := Link.misfit fits
      refine ⟨[], link :: links, s, rfl, fun _ member => (nomatch member), rfl, hs, rfl, .inr ?_⟩
      have stopped : v.apply link s = .error (.refused (.sizeMismatch size t.2.size)) s :=
        Layout.addScaledMisfit (h.sizeAt hs) found
      exact ⟨link, links, t.2, rfl, first, forMStops links stopped⟩

theorem chainFits (h : v.Reaches inv size elements) {links : List (Link T)}
    (readable : ∀ link ∈ links, ∀ x ∈ link.vectors, x.Readable)
    (fits : ∀ link ∈ links, link.Fits size) {s : σ} (hs : inv s) :
    ∃ s', v.chain links s = .ok () s' ∧ inv s' ∧
      elements s' = links.foldl Link.addTo (elements s) := by
  obtain ⟨good, rest, s', rfl, -, -, kept, added, ends⟩ := h.chainStops readable hs
  rcases ends with ⟨rfl, done⟩ | ⟨bad, later, x, rfl, found, -⟩
  · rw [List.append_nil] at done ⊢
    exact ⟨s', done, kept, added⟩
  · have wrong := List.find?_some found
    have right := fits bad (by simp) x (List.mem_of_find?_eq_some found)
    simp [right] at wrong

end Layout.Reaches

namespace Layout.Lawful

variable {v : Layout σ T} {inv : σ → Prop} {size : Nat} {elements : σ → Array T}

theorem applyIff (h : v.Lawful inv size elements) {link : Link T}
    (coherent : ∀ x ∈ link.vectors, x.Coherent) {s : σ} (hs : inv s) :
    (∃ s', v.apply link s = .ok () s') ↔ link.Fits size :=
  h.reaches.applyIff (fun x there => (coherent x there).readable) hs

theorem chainStops (h : v.Lawful inv size elements) {links : List (Link T)}
    (coherent : ∀ link ∈ links, ∀ x ∈ link.vectors, x.Coherent) {s : σ} (hs : inv s) :
    ∃ good rest s', links = good ++ rest ∧ (∀ link ∈ good, link.Fits size) ∧
      v.chain good s = .ok () s' ∧ inv s' ∧ elements s' = good.foldl Link.addTo (elements s) ∧
      (rest = [] ∧ v.chain links s = .ok () s' ∨
        ∃ bad later x, rest = bad :: later ∧
          bad.vectors.find? (fun x => x.size ≠ size) = some x ∧
          v.chain links s = .error (.refused (.sizeMismatch size x.size)) s') :=
  h.reaches.chainStops (fun link member x there => (coherent link member x there).readable) hs

end Layout.Lawful

end Links

namespace View

variable [Zero T] [One T] [Add T] [Mul T] [Neg T] {r : Registry T} {view : View}
  {v : Layout (Registry T) T}

/- The only refusal of a chain is the size of an operand; an operand that fits is read without one. -/
theorem chainAdds (opened : openIn r view = .ok v) (grounded : view.Grounded r) {s : Registry T}
    (hs : s.HasShapes r.shapes) {links : List (Link T)}
    (shown : ∀ link ∈ links, ∀ x ∈ link.vectors, Shows x) :
    (∀ link ∈ links, (∃ s', v.apply link s = .ok () s') ↔ link.Fits (v.size s)) ∧
      (∀ link ∈ links, link.Fits (v.size s) → ∀ x ∈ link.vectors, ∀ i < v.size s,
        x.get i = .ok (x.item i)) ∧
      ∃ good rest s', links = good ++ rest ∧ (∀ link ∈ good, link.Fits (v.size s)) ∧
        v.chain good s = .ok () s' ∧ s'.HasShapes r.shapes ∧
        view.elements s' = good.foldl Link.addTo (view.elements s) ∧
        (rest = [] ∧ v.chain links s = .ok () s' ∨
          ∃ bad later x, rest = bad :: later ∧
            bad.vectors.find? (fun x => x.size ≠ v.size s) = some x ∧
            v.chain links s = .error (.refused (.sizeMismatch (v.size s) x.size)) s') := by
  obtain ⟨lawful, -⟩ := layoutLawful (openedSource opened) grounded
  have coherent : ∀ link ∈ links, ∀ x ∈ link.vectors, x.Coherent :=
    fun link member x there => View.coherent (shown link member x there)
  rw [lawful.sizeAt hs]
  refine ⟨fun link member => lawful.applyIff (coherent link member) hs, ?_,
    lawful.chainStops coherent hs⟩
  intro link member fits x there i inside
  obtain ⟨xs, held⟩ := coherent link member x there
  have within : i < xs.size := held.size ▸ (fits x there).symm ▸ inside
  rw [held.get, Cells.readSliceInside within, held.item within]

theorem chainAddsTail :
    (∃ s', tailOpened.apply (.subtract (tailOpened.cells twoBases)) twoBases = .ok () s') ∧
      ¬ ∃ s', tailOpened.apply (.add ((Registry.layout "left").cells twoBases)) twoBases =
        .ok () s' := by
  have shown : ∀ link ∈ [Link.subtract (tailOpened.cells twoBases),
      Link.add ((Registry.layout "left").cells twoBases)], ∀ x ∈ link.vectors, Shows x := by
    intro link member x there
    rcases List.mem_cons.mp member with rfl | last
    · exact List.mem_singleton.mp there ▸ showsTail
    · cases List.mem_singleton.mp last
      exact List.mem_singleton.mp there ▸ showsLeft
  obtain ⟨succeeds, -⟩ := chainAdds opensTail groundedTail rfl shown
  constructor
  · refine (succeeds _ List.mem_cons_self).mpr fun x there => ?_
    rw [List.mem_singleton.mp there]
    rfl
  · refine (succeeds _ (List.mem_cons_of_mem _ List.mem_cons_self)).not.mpr fun fits => ?_
    exact absurd (fits _ (List.mem_singleton_self _)) (by decide)

end View

end SignalVector
