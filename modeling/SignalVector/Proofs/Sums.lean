import SignalVector.Proofs.Faultless
import SignalVector.Proofs.Views

/-! The sums that all scaled additions rest on. An operand is read through its slice where it has
one and through its own reads where it has none; as both read the same elements, it does not matter
for any sum, inside the size or outside, which of the two an operand offers. -/
namespace SignalVector

variable {T : Type}

namespace Cells

def Sliced (c : Cells T) : Prop :=
  ∀ values, c.contiguous = some values →
    values.size = c.size ∧ ∀ i (inside : i < values.size), c.get i = .ok values[i]

structure SameElements (c c' : Cells T) : Prop where
  size : c.size = c'.size
  get : ∀ i < c.size, c.get i = c'.get i

variable {c c' : Cells T} {xs xs' : Array T}

theorem Coherent.sliced (coherent : c.Coherent) : c.Sliced := by
  obtain ⟨xs, held⟩ := coherent
  intro values slice
  obtain rfl := held.contiguous values slice
  exact ⟨held.size.symm, held.reads.get⟩

theorem Holds.sameElements (h : c.Holds xs) (h' : c'.Holds xs) : c.SameElements c' where
  size := h.size.trans h'.size.symm
  get i _ := (h.get i).trans (h'.get i).symm

theorem SameElements.held (same : c.SameElements c') (h : c.Holds xs) (h' : c'.Holds xs') :
    xs = xs' := by
  have sizes : xs.size = xs'.size := h.size.symm.trans (same.size.trans h'.size)
  refine Array.ext sizes fun i inside inside' => ?_
  have read : c.get i = c'.get i := same.get i (h.size ▸ inside)
  rw [h.get, h'.get, readSliceInside inside, readSliceInside inside'] at read
  exact Except.ok.inj read

theorem SameElements.read (same : c.SameElements c') (coherent : c.Coherent)
    (coherent' : c'.Coherent) (i : Nat) : c.read i = c'.read i := by
  obtain ⟨xs, h⟩ := coherent
  obtain ⟨xs', h'⟩ := coherent'
  rw [h.read, h'.read, same.held h h']

theorem Coherent.readOutside (coherent : c.Coherent) {i : Nat} (outside : c.size ≤ i) :
    c.read i = .error (.refused (.outOfRange i c.size)) := by
  obtain ⟨xs, h⟩ := coherent
  rw [h.read, h.size, readSliceOutside (h.size ▸ outside)]

theorem Coherent.getInside [Zero T] (coherent : c.Coherent) {i : Nat} (inside : i < c.size) :
    c.get i = .ok (c.item i) := by
  obtain ⟨xs, h⟩ := coherent
  have within : i < xs.size := h.size ▸ inside
  rw [h.item within, h.reads.get i within]

end Cells

namespace Operands

structure Exchanged (t t' : T × Cells T) : Prop where
  scale : t.1 = t'.1
  elements : t.2.SameElements t'.2
  coherent : t'.2.Coherent

variable {size : Nat} {terms terms' : List (T × Cells T)}

theorem checkedFits {o : Operands T} (checked : check size terms = .ok o) :
    ∃ fits, o = ⟨size, terms, fits⟩ := by
  by_cases fits : ∀ t ∈ terms, t.2.size = size
  · rw [checkFits fits] at checked
    exact ⟨fits, (Except.ok.inj checked).symm⟩
  · obtain ⟨t, found⟩ := misfit fits
    rw [checkMisfit found] at checked
    contradiction

theorem exchangedSizes (exchanged : List.Forall₂ Exchanged terms terms')
    (fits : ∀ t ∈ terms, t.2.size = size) : ∀ t ∈ terms', t.2.size = size := by
  induction exchanged with
  | nil => nofun
  | cons first _ ih =>
    obtain ⟨here, later⟩ := List.forall_mem_cons.mp fits
    exact List.forall_mem_cons.mpr ⟨first.elements.size.symm.trans here, ih later⟩

theorem exchangedReads (exchanged : List.Forall₂ Exchanged terms terms')
    (coherent : ∀ t ∈ terms, t.2.Coherent) :
    List.Forall₂ (fun t t' => t.1 = t'.1 ∧ ∀ i, t.2.read i = t'.2.read i) terms terms' := by
  induction exchanged with
  | nil => exact .nil
  | cons first _ ih =>
    obtain ⟨here, later⟩ := List.forall_mem_cons.mp coherent
    exact .cons ⟨first.scale, first.elements.read here first.coherent⟩ (ih later)

variable [Zero T] [Add T] [Mul T]

theorem sumAtSame (same : List.Forall₂ (fun t t' => t.1 = t'.1 ∧ ∀ i, t.2.read i = t'.2.read i)
    terms terms') (fits : ∀ t ∈ terms, t.2.size = size) (fits' : ∀ t ∈ terms', t.2.size = size)
    (i : Nat) : sumAt ⟨size, terms', fits'⟩ i = sumAt ⟨size, terms, fits⟩ i := by
  change List.foldlM _ 0 terms' = List.foldlM _ 0 terms
  clear fits fits'
  generalize (0 : T) = start
  induction same generalizing start with
  | nil => rfl
  | cons first _ ih =>
    obtain ⟨scale, read⟩ := first
    simp only [List.foldlM_cons, scale, read, ih]

theorem sumAtOutside {o : Operands T} (coherent : ∀ t ∈ o.terms, t.2.Coherent)
    (some : o.terms ≠ []) {i : Nat} (outside : o.size ≤ i) :
    o.sumAt i = .error (.refused (.outOfRange i o.size)) := by
  obtain ⟨size, terms, fits⟩ := o
  cases terms with
  | nil => exact absurd rfl some
  | cons t terms =>
    have own : t.2.size = size := fits t List.mem_cons_self
    have refused := (coherent t List.mem_cons_self).readOutside (own ▸ outside : t.2.size ≤ i)
    rw [own] at refused
    simp only [sumAt, List.foldlM_cons, refused, bind, Except.bind]

structure Sums (size : Nat) (terms : List (T × Cells T)) (o : Operands T) : Prop where
  inside : ∀ i < size, (∀ t ∈ terms, t.2.get i = .ok (t.2.item i)) ∧
    o.sumAt i = .ok (terms.foldl (fun sum t => sum + t.2.item i * t.1) 0)
  outside : terms ≠ [] → ∀ i, size ≤ i → o.sumAt i = .error (.refused (.outOfRange i size))
  empty : terms = [] → ∀ i, o.sumAt i = .ok 0
  exchanged : ∀ terms', List.Forall₂ Exchanged terms terms' →
    ∃ o', check size terms' = .ok o' ∧ ∀ i, o'.sumAt i = o.sumAt i

theorem checkedSums {o : Operands T} (coherent : ∀ t ∈ terms, t.2.Coherent)
    (checked : check size terms = .ok o) : o.Sums size terms := by
  obtain ⟨fits, rfl⟩ := checkedFits checked
  constructor
  · intro i inside
    refine ⟨fun t member => (coherent t member).getInside ((fits t member).symm ▸ inside), ?_⟩
    exact sumAtReadable (fun t member => (coherent t member).readable) inside
  · exact fun some i outside => sumAtOutside coherent some outside
  · rintro rfl i
    rfl
  · intro terms' exchanged
    have fits' := exchangedSizes exchanged fits
    exact ⟨_, checkFits fits', sumAtSame (exchangedReads exchanged coherent) fits fits'⟩

end Operands

theorem operandsSum [Zero T] [Add T] [Mul T] :
    (∀ c : Cells T, View.Shows c → c.Coherent ∧ c.Sliced) ∧
      ∀ (size : Nat) (terms : List (T × Cells T)) (o : Operands T),
        (∀ t ∈ terms, t.2.Coherent) → Operands.check size terms = .ok o → o.Sums size terms := by
  refine ⟨fun c shows => ?_, fun size terms o => Operands.checkedSums⟩
  have coherent := View.coherent shows
  exact ⟨coherent, coherent.sliced⟩

theorem operandsSumTail :
    let slice : Cells Float := .ofArray #[2, 3, 4]
    let joined : Cells Float := View.tailOpened.cells View.twoBases
    ∃ o o', Operands.check 3 [(2, joined), (5, joined)] = .ok o ∧
      Operands.check 3 [(2, slice), (5, joined)] = .ok o' ∧ o.sumAt 1 = .ok (0 + 3 * 2 + 3 * 5) ∧
      o.sumAt Index.largest = .error (.refused (.outOfRange Index.largest 3)) ∧
      ∀ i, o'.sumAt i = o.sumAt i := by
  intro slice joined
  have terms : ∀ t ∈ [((2 : Float), joined), (5, joined)], t.2.Coherent ∧ t.2.size = 3 := by
    have coherent := (operandsSum.1 joined View.showsTail).1
    simpa using ⟨coherent, rfl⟩
  have checked := Operands.checkFits fun t member => (terms t member).2
  have sums := operandsSum.2 3 _ _ (fun t member => (terms t member).1) checked
  have shown : joined.Holds #[2, 3, 4] := (View.cellsHold (View.openedSource View.opensTail) rfl).1
  have held : slice.Holds #[2, 3, 4] := Cells.holdsOfArray _
  obtain ⟨o', checked', equal⟩ := sums.exchanged [(2, slice), (5, joined)]
    (.cons ⟨rfl, shown.sameElements held, ⟨_, held⟩⟩
      (.cons ⟨rfl, shown.sameElements shown, ⟨_, shown⟩⟩ .nil))
  refine ⟨_, o', checked, checked', (sums.inside 1 (by decide)).2, ?_, equal⟩
  exact sums.outside (by simp) _ (by decide)

end SignalVector
