import SignalVector.Proofs.Comparison
import SignalVector.Proofs.Duals
import SignalVector.Proofs.Related
import SignalVector.Proofs.Views

/-! Norms of dual numbers against norms of their values. Both compare from the first magnitude on.
Where a plain operand is no number the other is chosen, on either side; a dual number whose value is
none is passed over as the second operand but stays as the first. So the norms agree unless a vector
begins with such a value and has numbers behind it. -/
namespace SignalVector

open Binary64 (Alike alikeIff absNegative absOther absNaN isNaN nanNotLess notLessNaN)

variable {n : Nat}

theorem Dual.magnitudeAlike (a : Dual Float n) : Alike (magnitude a).value (magnitude a.value) := by
  change Alike (if a.value < 0 then -a else a).value a.value.abs
  split
  · rename_i negative
    exact alikeIff.mpr (.inl (absNegative negative))
  · rename_i other
    exact absOther other

namespace Binary64

theorem largerLeft (x : Float) : larger Float.nan x = x := if_pos (isNaN.mpr rfl)

theorem largerRight (x : Float) : larger x Float.nan = x := by
  unfold larger
  split
  · rename_i none
    exact (isNaN.mp none).symm
  · exact if_pos (isNaN.mpr rfl)

theorem largerNumbers {x y : Float} (left : x ≠ Float.nan) (right : y ≠ Float.nan) :
    larger x y = if x < y then y else x := by
  rw [larger, if_neg (mt isNaN.mp left), if_neg (mt isNaN.mp right)]

theorem largerNaN {x y : Float} : larger x y = Float.nan ↔ x = Float.nan ∧ y = Float.nan := by
  by_cases left : x = Float.nan
  · rw [left, largerLeft]
    simp
  · by_cases right : y = Float.nan
    · rw [right, largerRight]
      simp
    · rw [largerNumbers left right]
      split <;> simp [left, right]

theorem foldNaN {ms : List Float} {m : Float} :
    ms.foldl Magnitude.larger m = Float.nan ↔ m = Float.nan ∧ ∀ x ∈ ms, x = Float.nan := by
  induction ms generalizing m with
  | nil => simp
  | cons x ms ih =>
    have here : Magnitude.larger m x = Float.nan ↔ m = Float.nan ∧ x = Float.nan := largerNaN
    rw [List.foldl_cons, ih, here, List.forall_mem_cons, and_assoc]

theorem largestNaN (first : Float) (rest : List Float) :
    Cells.largest (first :: rest) = Float.nan ↔ ∀ x ∈ first :: rest, x = Float.nan := by
  have each : ∀ x : Float, magnitude x = Float.nan ↔ x = Float.nan := fun _ => absNaN
  rw [Cells.largestCons, foldNaN, List.forall_mem_map, List.forall_mem_cons]
  simp only [each]

end Binary64

namespace Dual

theorem foldStays {ms : List (Dual Float n)} {m : Dual Float n} (none : m.value = Float.nan) :
    ms.foldl larger m = m := by
  induction ms with
  | nil => rfl
  | cons a ms ih =>
    have here : larger m a = m := if_neg (none ▸ nanNotLess a.value)
    rw [List.foldl_cons, here, ih]

structure Counts (a : Dual Float n) (x : Float) : Prop where
  alike : Alike a.value x
  number : a.value ≠ Float.nan

theorem largerCounts {a b : Dual Float n} {x y : Float} (left : a.Counts x)
    (right : Alike b.value y) : (larger a b).Counts (larger x y) := by
  change Counts (if a.value < b.value then b else a) (Binary64.larger x y)
  by_cases none : b.value = Float.nan
  · rw [if_neg (none ▸ notLessNaN a.value), right.nanIff.mp none, Binary64.largerRight]
    exact left
  · rw [Binary64.largerNumbers (mt left.alike.nanIff.mpr left.number) (mt right.nanIff.mpr none)]
    by_cases less : a.value < b.value
    · rw [if_pos less, if_pos ((left.alike.less right).mp less)]
      exact ⟨right, none⟩
    · rw [if_neg less, if_neg (mt (left.alike.less right).mpr less)]
      exact left

theorem largestCounts {first : Dual Float n} (rest : List (Dual Float n))
    (number : first.value ≠ Float.nan) :
    Counts (Cells.largest (first :: rest)) (Cells.largest ((first :: rest).map value)) := by
  have start := magnitudeAlike first
  have number : (magnitude first).value ≠ Float.nan :=
    mt start.nanIff.mp (mt absNaN.mp number)
  have behind : List.Forall₂ (fun (a : Dual Float n) x => Alike (magnitude a).value (magnitude x))
      rest (rest.map value) :=
    List.forall₂_map_right_iff.mpr (List.forall₂_same.mpr fun a _ => magnitudeAlike a)
  exact Cells.largestRelated largerCounts ⟨start, number⟩ behind

theorem largestNaN {first : Dual Float n} (rest : List (Dual Float n))
    (none : first.value = Float.nan) : (Cells.largest (first :: rest)).value = Float.nan := by
  have start : (magnitude first).value = Float.nan :=
    (magnitudeAlike first).nanIff.mpr (absNaN.mpr none)
  rw [Cells.largestCons, foldStays start, start]

structure NormsCompare (xs : List (Dual Float n)) (d : Dual Float n) (x : Float) : Prop where
  dual : d.value.isNaN = true ↔ ∃ first, xs.head? = some first ∧ first.value.isNaN = true
  values : x.isNaN = true ↔ xs ≠ [] ∧ ∀ a ∈ xs, a.value.isNaN = true
  alike : Alike d.value x ↔
    ∀ first, xs.head? = some first → first.value.isNaN = true → ∀ a ∈ xs, a.value.isNaN = true

theorem largestCompare (xs : List (Dual Float n)) :
    NormsCompare xs (Cells.largest xs) (Cells.largest (xs.map value)) := by
  cases xs with
  | nil =>
    have number : ¬ (0 : Float).isNaN = true := by decide
    have same : Alike 0 0 := .inl (by decide)
    exact ⟨iff_of_false number nofun, iff_of_false number fun some => some.1 rfl,
      iff_of_true same nofun⟩
  | cons first rest =>
    have dual : (Cells.largest (first :: rest)).value = Float.nan ↔ first.value = Float.nan :=
      ⟨fun none => by_contra fun number => (largestCounts rest number).number none,
        largestNaN rest⟩
    have values : Cells.largest ((first :: rest).map value) = Float.nan ↔
        ∀ a ∈ first :: rest, a.value = Float.nan := by
      rw [List.map_cons, Binary64.largestNaN, ← List.map_cons, List.forall_mem_map]
    simp only [← isNaN] at dual values
    refine ⟨by simpa using dual, by simpa using values, ?_⟩
    constructor
    · rintro alike _ ⟨⟩ none
      exact values.mp (isNaN.mpr (alike.nanIff.mp (isNaN.mp (dual.mpr none))))
    · intro all
      by_cases none : first.value.isNaN = true
      · exact .inr ⟨dual.mpr none, values.mpr (all first rfl none)⟩
      · exact (largestCounts rest (mt isNaN.mpr none)).alike

end Dual

namespace View

variable {r s : Registry (Dual Float n)} {r' s' : Registry Float} {view view' : View}
  {v : Layout (Registry (Dual Float n)) (Dual Float n)} {v' : Layout (Registry Float) Float}

theorem normsCompare (opened : openIn r view = .ok v) (opened' : openIn r' view' = .ok v')
    (measured : s.HasShapes r.shapes) (measured' : s'.HasShapes r'.shapes)
    (word : (view.elements s).size < Index.limit)
    (same : view'.elements s' = (view.elements s).map Dual.value) :
    ∃ d x, v.normInf s = .ok d ∧ v'.normInf s' = .ok x ∧
      Dual.NormsCompare (view.elements s).toList d x := by
  have held := (cellsHold (openedSource opened) measured).1
  have held' := (cellsHold (openedSource opened') measured').1
  rw [same] at held'
  have word' : ((view.elements s).map Dual.value).size < Index.limit := by simpa using word
  have compare := Dual.largestCompare (view.elements s).toList
  rw [← Array.toList_map] at compare
  exact ⟨_, _, held.normInf word, held'.normInf word', compare⟩

theorem normsCompareBehind :
    let points : Array (Dual Float 1) := #[⟨-2, #v[1]⟩, ⟨Float.nan, #v[0]⟩, ⟨1, #v[4]⟩]
    let slopes : Registry (Dual Float 1) := ⟨[("x", .contiguous (.ofArray points))]⟩
    let values : Registry Float :=
      ⟨[("x", .contiguous (.ofArray #[-2])), ("y", .column ⟨#[Float.nan, 1]⟩)]⟩
    ∃ v v' d x, openIn slopes (.base "x") = .ok v ∧
      openIn values (.blocks [.base "x", .base "y"]) = .ok v' ∧
      v.normInf slopes = .ok d ∧ v'.normInf values = .ok x ∧ Alike d.value x := by
  intro points slopes values
  have opened : openIn slopes (.base "x") = .ok (Registry.layout "x") := rfl
  have joined : openIn values (.blocks [.base "x", .base "y"]) =
      .ok (Blocks.layout ⟨[Registry.layout "x", Registry.layout "y"], [0, 1, 3]⟩) := rfl
  have same : elements (.blocks [.base "x", .base "y"]) values = points.map Dual.value := by
    change #[-2] ++ (#[Float.nan, 1] ++ #[]) = _
    simp [points]
  obtain ⟨d, x, ran, ran', compare⟩ :=
    normsCompare (s := slopes) opened joined rfl rfl (by decide) same
  refine ⟨_, _, d, x, opened, joined, ran, ran', compare.alike.mpr ?_⟩
  rintro _ ⟨⟩ none
  exact absurd none (by decide)

/- In front it stays, and the dual norm is no number while the other is one. -/
theorem normsDiffer :
    let slopes : Registry (Dual Float 0) :=
      ⟨[("x", .contiguous (.ofArray #[⟨Float.nan, #v[]⟩, ⟨1, #v[]⟩]))]⟩
    let values : Registry Float := ⟨[("x", .contiguous (.ofArray #[Float.nan, 1]))]⟩
    ∃ v v' d, openIn slopes (.base "x") = .ok v ∧ openIn values (.base "x") = .ok v' ∧
      v.normInf slopes = .ok d ∧ v'.normInf values = .ok 1 ∧ ¬ Alike d.value 1 :=
  ⟨_, _, _, rfl, rfl, rfl, rfl, by decide⟩

end View

end SignalVector
