import Mathlib.Algebra.Order.BigOperators.Group.List
import Mathlib.Algebra.Order.Group.Nat
import Mathlib.Algebra.Order.Monoid.Canonical.Defs
import Mathlib.Data.List.Perm.Subperm
import SignalVector.Proofs.Faultless
import SignalVector.Proofs.Transfers

/-! Views of vectors that fit into memory together. Different indices of a view are different slots,
so no view is larger than all vectors together, and no sum of sizes leaves the indices. Whatever views
are opened and called through, one after the other, there is no fault. -/
namespace SignalVector

variable {σ T : Type}

def Registry.total (r : Registry T) : Nat := (r.entries.map fun entry => entry.2.values.size).sum

def Registry.slots (r : Registry T) : List (String × Nat) :=
  r.entries.flatMap fun entry => (List.range entry.2.values.size).map (entry.1, ·)

theorem Registry.countSlots (r : Registry T) : r.slots.length = r.total := by
  simp [slots, total, List.length_flatMap]

theorem Registry.storedSlot {r : Registry T} {p : String × Nat}
    (inside : p.2 < (valuesOf p.1 r).size) : p ∈ r.slots := by
  cases found : r.find? p.1 with
  | none =>
    have none : r.base p.1 = .empty := by rw [base, found]; rfl
    rw [valuesOf, none] at inside
    exact absurd inside (Nat.not_lt_zero _)
  | some b =>
    rw [valuesOf, baseFound found] at inside
    obtain ⟨before, behind, split, -⟩ := List.lookup_eq_some_iff.mp found
    have member : (p.1, b) ∈ r.entries := by rw [split]; simp
    exact List.mem_flatMap.mpr ⟨_, member, List.mem_map.mpr ⟨p.2, List.mem_range.mpr inside, rfl⟩⟩

theorem View.elementsFit {r : Registry T} {view : View} (once : view.names.Nodup) :
    (view.elements r).size ≤ r.total := by
  have stored : view.places r ⊆ r.slots := by
    intro p shown
    obtain ⟨i, placed⟩ := List.mem_iff_getElem?.mp shown
    have there : i < (view.elements r).size := by
      rw [← View.lengthPlaces]
      exact (List.getElem?_eq_some_iff.mp placed).1
    have entry := View.elementAt rfl placed
    rw [Array.getElem?_eq_getElem there] at entry
    exact Registry.storedSlot (Array.getElem?_eq_some_iff.mp entry.symm).1
  rw [← View.lengthPlaces, ← Registry.countSlots]
  exact (List.subperm_of_subset (View.placesOnce once) stored).length_le

namespace Blocks

theorem offsetsSummed {offset : Nat} {sizes : List Nat} (word : offset + sizes.sum < Index.limit) :
    offsetsFrom offset sizes = .ok (starts offset sizes) := by
  induction sizes generalizing offset with
  | nil => rfl
  | cons size sizes ih =>
    rw [List.sum_cons] at word
    have next : Index.add offset size = .ok (offset + size) := if_pos (by omega)
    simp only [offsetsFrom, next, bind, Except.bind, ih (by omega : offset + size + sizes.sum < _)]
    rfl

theorem startsAt (offset : Nat) {sizes : List Nat} {k : Nat} (within : k ≤ sizes.length) :
    (starts offset sizes)[k]? = some (offset + (sizes.take k).sum) := by
  induction sizes generalizing offset k with
  | nil =>
    obtain rfl : k = 0 := Nat.le_zero.mp within
    rfl
  | cons size sizes ih =>
    cases k with
    | zero => rfl
    | succ k =>
      rw [starts, List.getElem?_cons_succ, ih (offset + size) (Nat.le_of_succ_le_succ within)]
      simp [Nat.add_assoc]

structure Indexed (b : Blocks σ T) : Prop where
  offset : b.offsets ≠ []
  spans : ∀ k < b.count, ∃ start stop, b.offsets[k]? = some start ∧ b.offsets[k + 1]? = some stop ∧
    start ≤ stop ∧ stop ≤ b.size

theorem madeIndexed {vs : List (Layout σ T)} {s : σ} {b : Blocks σ T} (made : make vs s = .ok b) :
    b.Indexed := by
  obtain ⟨offsets, sums, whole⟩ := bindSucceeds made
  cases whole
  obtain ⟨rfl, -⟩ := madeStarts sums (by decide)
  refine ⟨?_, fun k inside => ?_⟩
  · cases vs <;> simp [starts]
  · have within : k + 1 ≤ (vs.map (·.size s)).length := by
      rw [List.length_map]
      exact inside
    have later := List.monotone_sum_take (vs.map (·.size s))
    refine ⟨_, _, startsAt 0 (Nat.le_of_succ_le within), startsAt 0 within, ?_, ?_⟩
    · exact Nat.add_le_add_left (later (Nat.le_succ k)) 0
    · rw [size, lastStart]
      have whole := later within
      simp only [List.take_length] at whole
      exact Nat.add_le_add_left whole 0

end Blocks

theorem Buffer.reserveLess [Width T] {small large : Nat} (room : reserve T large = .ok ())
    (less : small ≤ large) : reserve T small = .ok () := by
  unfold reserve at room ⊢
  split at room
  · rename_i fits
    exact if_pos ((Nat.mul_le_mul_right _ less).trans fits)
  · contradiction

theorem Range.makeFaultless (parent : Layout σ T) (s : σ) (first length : Nat) :
    Faultless (make parent s first length) := by
  unfold make
  dsimp only
  split
  · split
    · exact .ok _
    · exact .refused _
  · exact .refused _

namespace View

open Operation (Answers)

structure Stored (r : Registry T) (view : View) : Prop where
  bases : ∀ name ∈ view.names, ∃ b, r.find? name = some b
  once : view.names.Nodup

theorem Stored.grounded {r : Registry T} {view : View} (stored : view.Stored r)
    (memory : r.total < Index.limit) : view.Grounded r where
  bases name member := by
    obtain ⟨b, found⟩ := stored.bases name member
    have fits : (elements (.base name) r).size ≤ r.total := elementsFit (List.nodup_singleton name)
    rw [elements, Registry.valuesOf, Registry.baseFound found] at fits
    exact ⟨b, found, fits.trans_lt memory⟩
  once := stored.once

section Opening

variable [Zero T] [Add T] [Mul T] {r s : Registry T} {view : View}

theorem allFaultless {parts : List View} (each : ∀ view ∈ parts, Faultless (openIn r view)) :
    Faultless (openAll r parts) := by
  induction parts with
  | nil => exact .ok _
  | cons view views ih =>
    have rest := ih fun w member => each w (List.mem_cons_of_mem view member)
    exact (each view List.mem_cons_self).bind fun _ _ => rest.bind fun _ _ => .ok _

theorem sizeFits (same : s.shapes = r.shapes) (once : view.names.Nodup)
    {v : Layout (Registry T) T} (opened : openIn s view = .ok v) : v.size s ≤ r.total := by
  have opened := openedSource opened
  have sized : v.size s = (view.elements r).size :=
    (measured opened).trans (cellsHold opened same.symm).2.symm
  exact sized ▸ elementsFit once

variable (memory : r.total < Index.limit)

include memory

theorem joinsFaultless {parts : List View} (once : (namesAll parts).Nodup)
    {vs : List (Layout (Registry T) T)} (opened : openAll r parts = .ok vs) :
    Faultless (Blocks.make vs r) := by
  obtain ⟨pairs, rfl, rfl, each⟩ := openedAll opened
  have sizes : (pairs.map Prod.snd).map (·.size r) = (pairs.map (asPart r)).map Part.size := by
    rw [List.map_map, List.map_map]
    exact List.map_congr_left fun q member => measured (openedSource (each q member))
  have whole : (elements (.blocks (pairs.map Prod.fst)) r).size ≤ r.total := elementsFit once
  have word : 0 + ((pairs.map Prod.snd).map (·.size r)).sum < Index.limit := by
    rw [Nat.zero_add, sizes]
    exact (Nat.le_of_eq (totalParts pairs)).trans_lt (whole.trans_lt memory)
  simp only [Blocks.make, Blocks.offsetsSummed word]
  exact .ok _

theorem opensFaultless (once : view.names.Nodup) : Faultless (openIn r view) := by
  induction view with
  | base name => exact .ok _
  | range parent first length ih =>
    exact (ih once).bind fun p _ => (Range.makeFaultless p r first length).bind fun _ _ => .ok _
  | blocks parts ih =>
    have all := allFaultless fun view member => ih view member ((onceAll once).1 view member)
    exact all.bind fun vs opened => (joinsFaultless memory once opened).bind fun _ _ => .ok _

theorem reopensFaultless (same : s.shapes = r.shapes) (once : view.names.Nodup) :
    Faultless (openIn s view) := by
  rcases (opensMatched same view).either with ⟨e, here, here'⟩ | ⟨_, v, _, here', -⟩
  · rw [here']
    exact .error (opensFaultless memory once e here)
  · rw [here']
    exact .ok v

end Opening

section Sessions

variable [Zero T] [One T] [Add T] [Mul T] [Neg T] [Magnitude T] {r s : Registry T}

def session : List (View × List (Operation T)) → Registry T →
    List (Except Failure (List (Outcome T))) × Registry T
  | [], r => ([], r)
  | (view, ops) :: steps, r =>
    let (result, s) := view.calls ops r
    let (results, last) := session steps s
    (result :: results, last)

structure Answered (step : View × List (Operation T)) (result : Except Failure (List (Outcome T))) :
    Prop where
  opening : Faultless result
  calls : ∀ outcomes, result = .ok outcomes → List.Forall₂ Answers step.2 outcomes

variable (memory : r.total < Index.limit)

include memory

theorem callsAnswered {step : View × List (Operation T)} (stored : step.1.Stored r)
    (shows : ∀ op ∈ step.2, ∀ c ∈ op.operands, Shows c) (same : s.shapes = r.shapes) :
    Answered step (step.1.calls step.2 s).1 := by
  have opens := reopensFaultless memory same stored.once
  cases opening : openIn s step.1 with
  | error e =>
    rw [callsRefused opening]
    exact ⟨.error (opens e opening), fun _ answered => nomatch answered⟩
  | ok v =>
    rw [callsOpened opening]
    have grounded := (stored.grounded memory).sameShapes same
    obtain ⟨lawful, small⟩ := layoutLawful (openedSource opening) grounded
    refine ⟨.ok _, ?_⟩
    rintro _ ⟨⟩
    exact Operation.runAllAnswers lawful small step.2
      (fun op member c there => coherent (shows op member c there)) rfl

/- By induction on the steps. No call changes a shape, so each view is opened at its turn as it would
have been in the beginning. -/
theorem sessionAnswered {steps : List (View × List (Operation T))}
    (stored : ∀ step ∈ steps, step.1.Stored r)
    (shows : ∀ step ∈ steps, ∀ op ∈ step.2, ∀ c ∈ op.operands, Shows c)
    (same : s.shapes = r.shapes) : List.Forall₂ Answered steps (session steps s).1 ∧
      (session steps s).2.shapes = r.shapes := by
  induction steps generalizing s with
  | nil => exact ⟨.nil, same⟩
  | cons step steps ih =>
    have here := stored step List.mem_cons_self
    have kept := callsKeepShapes ((here.grounded memory).sameShapes same) step.2
    obtain ⟨rest, last⟩ := ih (fun step' member => stored step' (List.mem_cons_of_mem step member))
      (fun step' member => shows step' (List.mem_cons_of_mem step member)) (kept.trans same)
    exact ⟨.cons (callsAnswered memory here (shows step List.mem_cons_self) same) rest, last⟩

/- Besides the calls: what is opened and captured after them, the offsets that blocks look up, and sums
of operands at indices that the operands need not have. A copy of a view asks for no more room than all
vectors take together. -/
theorem neverFaults [Width T] {steps : List (View × List (Operation T))}
    (stored : ∀ step ∈ steps, step.1.Stored r)
    (shows : ∀ step ∈ steps, ∀ op ∈ step.2, ∀ c ∈ op.operands, Shows c) :
    let after := session steps r
    List.Forall₂ Answered steps after.1 ∧
      (∀ view, Stored r view → Faultless (openIn after.2 view) ∧
        ∀ v, openIn after.2 view = .ok v → (∃ frame, Frame.capture v after.2 = .ok frame) ∧
          (Buffer.reserve T r.total = .ok () → Buffer.reserve T (v.size after.2) = .ok ())) ∧
      (∀ view b, openBlocks? after.2 view = .ok (some b) → b.Indexed) ∧
      ∀ size (terms : List (T × Cells T)), (∀ t ∈ terms, Shows t.2) →
        Faultless (Operands.check size terms) ∧
        ∀ o, Operands.check size terms = .ok o → ∀ i, Faultless (o.sumAt i) := by
  obtain ⟨answered, same⟩ := sessionAnswered memory stored shows rfl
  refine ⟨answered, fun view stored => ⟨reopensFaultless memory same stored.once, ?_⟩, ?_, ?_⟩
  · intro v opened
    have grounded := (stored.grounded memory).sameShapes same
    refine ⟨⟨_, captures (openedSource opened) grounded rfl⟩, fun room => ?_⟩
    exact Buffer.reserveLess room (sizeFits same stored.once opened)
  · intro view b opened
    cases view with
    | base name => cases opened
    | range parent first length => cases opened
    | blocks parts =>
      obtain ⟨pairs, b', -, -, made, same⟩ := openedParts (k := some) opened
      cases same
      exact Blocks.madeIndexed made
  · intro size terms shown
    refine ⟨Operands.checkFaultless size terms, fun o checked i => ?_⟩
    have own : o.terms = terms := Operands.checkedTerms checked
    exact Operands.sumAtFaultless (fun t member => coherent (shown t (own ▸ member))) i

end Sessions

theorem neverFaultsBeyond :
    let beyond : View := .range tailJoined Index.largest 2
    let steps : List (View × List (Operation Float)) :=
      [(tailJoined, [.clear, .get 7, .setFrom ((Registry.layout "left").cells twoBases)]),
        (beyond, [])]
    let after := session steps twoBases
    after.1 = [.ok [⟨.ok .done, none⟩, ⟨.error (.refused (.outOfRange 7 3)), none⟩,
        ⟨.error (.refused (.sizeMismatch 3 2)), none⟩],
      .error (.refused (.outOfRange Index.largest 3))] ∧
    List.Forall₂ Answered steps after.1 ∧ Faultless (openIn after.2 beyond) := by
  intro beyond steps after
  have storedTail : tailJoined.Stored twoBases := by
    refine ⟨fun name member => ?_, groundedTail.once⟩
    obtain ⟨b, found, -⟩ := groundedTail.bases name member
    exact ⟨b, found⟩
  have storedBeyond : beyond.Stored twoBases := ⟨storedTail.bases, storedTail.once⟩
  have stored : ∀ step ∈ steps, step.1.Stored twoBases :=
    List.forall_mem_cons.mpr ⟨storedTail, List.forall_mem_singleton.mpr storedBeyond⟩
  have shows : ∀ step ∈ steps, ∀ op ∈ step.2, ∀ c ∈ op.operands, Shows c := by
    simpa [steps, Operation.operands] using showsLeft
  obtain ⟨answered, opens, -⟩ := neverFaults (by decide) stored shows
  exact ⟨rfl, answered, (opens beyond storedBeyond).1⟩

end View

end SignalVector
