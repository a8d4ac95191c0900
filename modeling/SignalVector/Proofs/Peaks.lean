import SignalVector.Proofs.Norms
import SignalVector.Proofs.Ranks

/-! What a norm picks. The comparison from the first magnitude on ends at the first of the largest
magnitudes, since only a larger one takes its place: among dual numbers of one size the earliest
gives the derivatives. -/
namespace SignalVector

variable {T K : Type} [LinearOrder K] {key : T → K} {xs : List T} {m : Nat} {a : T}

structure FirstHighest (key : T → K) (xs : List T) (m : Nat) (a : T) : Prop where
  here : xs[m]? = some a
  highest : ∀ b ∈ xs, key b ≤ key a
  earliest : ∀ i < m, ∀ b, xs[i]? = some b → key b < key a

namespace FirstHighest

theorem overtaken (first : FirstHighest key xs m a) {b : T} (higher : key a < key b) :
    FirstHighest key (xs ++ [b]) xs.length b where
  here := List.getElem?_concat_length
  highest := by
    refine List.forall_mem_append.mpr ⟨fun c member => ?_, fun c last => ?_⟩
    · exact (first.highest c member).trans higher.le
    · rw [List.mem_singleton.mp last]
  earliest i before c found := by
    rw [List.getElem?_append_left before] at found
    exact (first.highest c (List.mem_of_getElem? found)).trans_lt higher

theorem kept (first : FirstHighest key xs m a) {b : T} (other : key b ≤ key a) :
    FirstHighest key (xs ++ [b]) m a := by
  obtain ⟨inside, -⟩ := List.getElem?_eq_some_iff.mp first.here
  constructor
  · rw [List.getElem?_append_left inside, first.here]
  · refine List.forall_mem_append.mpr ⟨first.highest, fun c last => ?_⟩
    rwa [List.mem_singleton.mp last]
  · intro i before c found
    rw [List.getElem?_append_left (before.trans inside)] at found
    exact first.earliest i before c found

end FirstHighest

/- By induction from the end of the list: the element that comes last replaces the first highest of
those before it or leaves it. -/
theorem Cells.largestFirst [Zero T] [Magnitude T] (key : T → K) (first : T) (rest : List T)
    (picks : ∀ a ∈ first :: rest, ∀ b ∈ first :: rest,
      larger (magnitude a) (magnitude b) = if key a < key b then magnitude b else magnitude a) :
    ∃ m a, FirstHighest key (first :: rest) m a ∧ largest (first :: rest) = magnitude a := by
  induction rest using List.reverseRecOn with
  | nil =>
    refine ⟨0, first, ⟨rfl, ?_, nofun⟩, rfl⟩
    exact fun b only => (List.mem_singleton.mp only ▸ le_rfl)
  | append_singleton rest last ih =>
    rw [← List.cons_append] at picks ⊢
    obtain ⟨m, a, highest, found⟩ := ih fun a here b there =>
      picks a (List.mem_append_left _ here) b (List.mem_append_left _ there)
    have member : a ∈ first :: rest := List.mem_of_getElem? highest.here
    have next : largest (first :: rest ++ [last]) =
        if key a < key last then magnitude last else magnitude a := by
      rw [← picks a (List.mem_append_left _ member) last (by simp), ← found, List.cons_append,
        largestCons, largestCons, List.map_append, List.foldl_append]
      rfl
    by_cases higher : key a < key last
    · exact ⟨_, last, highest.overtaken higher, next.trans (if_pos higher)⟩
    · exact ⟨m, a, highest.kept (not_lt.mp higher), next.trans (if_neg higher)⟩

namespace Binary64

theorem largerRank (x y : Float) :
    Magnitude.larger x y = if rank x < rank y then y else x := by
  change larger x y = _
  by_cases left : x = Float.nan
  · rw [left, largerLeft]
    by_cases right : y = Float.nan
    · rw [right, if_neg (lt_irrefl _)]
    · rw [if_pos (rankNaN.mpr right)]
  · by_cases right : y = Float.nan
    · rw [right, largerRight, if_neg (rankNaN.mpr left).not_gt]
    · simp only [largerNumbers left right, lessRank, and_iff_right left]

theorem absNumber {x : Float} (number : x.isNaN = false) : x.abs ≠ Float.nan :=
  fun none => Bool.eq_false_iff.mp number (isNaN.mpr (absNaN.mp none))

structure AttainsPeak (xs : List Float) (x : Float) : Prop where
  empty : xs = [] → x = 0
  attained : (∃ a ∈ xs, a.isNaN = false) → ∃ a ∈ xs, x = a.abs
  highest : ∀ a ∈ xs, a.isNaN = false → a.abs ≤ x
  none : xs ≠ [] → (x.isNaN = true ↔ ∀ a ∈ xs, a.isNaN = true)

theorem largestAttains (xs : List Float) : AttainsPeak xs (Cells.largest xs) := by
  cases xs with
  | nil => exact ⟨fun _ => rfl, nofun, nofun, fun some => absurd rfl some⟩
  | cons first rest =>
    obtain ⟨m, a, highest, found⟩ := Cells.largestFirst (fun a : Float => rank a.abs) first rest
      fun a _ b _ => largerRank a.abs b.abs
    refine ⟨nofun, fun _ => ⟨a, List.mem_of_getElem? highest.here, found⟩, ?_, fun _ => ?_⟩
    · intro b member number
      exact found ▸ atMostRank.mpr ⟨absNumber number, highest.highest b member⟩
    · simpa only [isNaN] using largestNaN first rest

end Binary64

namespace Dual

variable {n : Nat}

structure CarriesPeak (xs : List (Dual Float n)) (d : Dual Float n) : Prop where
  empty : xs = [] → d = 0
  peak : xs ≠ [] → (∀ a ∈ xs, a.value.isNaN = false) → ∃ (m : Nat) (a : Dual Float n),
    xs[m]? = some a ∧ (∀ b : Dual Float n, b ∈ xs → b.value.abs ≤ a.value.abs) ∧
    (∀ i < m, ∀ b : Dual Float n, xs[i]? = some b → b.value.abs < a.value.abs) ∧
    d = if a.value < 0 then ⟨a.value * -1, a.derivatives.map (· * -1)⟩ else a

theorem largestCarries (xs : List (Dual Float n)) : CarriesPeak xs (Cells.largest xs) := by
  cases xs with
  | nil => exact ⟨fun _ => rfl, fun some => absurd rfl some⟩
  | cons first rest =>
    refine ⟨nofun, fun _ numbers => ?_⟩
    have numbers : ∀ a ∈ first :: rest, a.value.abs ≠ Float.nan :=
      fun a member => Binary64.absNumber (numbers a member)
    have picks : ∀ a ∈ first :: rest, ∀ b ∈ first :: rest, larger (magnitude a) (magnitude b) =
        if Binary64.rank a.value.abs < Binary64.rank b.value.abs then magnitude b
        else magnitude a := by
      intro a here b there
      have less : (magnitude a).value < (magnitude b).value ↔
          Binary64.rank a.value.abs < Binary64.rank b.value.abs :=
        ((magnitudeAlike a).less (magnitudeAlike b)).trans
          (Binary64.lessRank.trans (and_iff_right (numbers a here)))
      change (if (magnitude a).value < (magnitude b).value then _ else _) = _
      simp only [less]
    obtain ⟨m, a, highest, found⟩ := Cells.largestFirst _ first rest picks
    refine ⟨m, a, highest.here, fun b member => ?_, fun i before b there => ?_, found⟩
    · exact Binary64.atMostRank.mpr ⟨numbers b member, highest.highest b member⟩
    · exact Binary64.lessRank.mpr
        ⟨numbers b (List.mem_of_getElem? there), highest.earliest i before b there⟩

example : (Cells.largest [(⟨1, #v[7]⟩ : Dual Float 1), ⟨-2, #v[3]⟩, ⟨2, #v[5]⟩]).derivatives =
    #v[-3] := by
  decide +kernel

end Dual

def EveryNorm (T : Type) [Zero T] [Add T] [Mul T] [Magnitude T] (holds : List T → T → Prop) :
    Prop :=
  (∀ (c : Cells T) (xs : Array T), c.Holds xs → xs.size < Index.limit →
    ∃ x, c.normInf = .ok x ∧ holds xs.toList x) ∧
  ∀ (r s : Registry T) (view : View) (v : Layout (Registry T) T), view.openIn r = .ok v →
    s.HasShapes r.shapes → (view.elements s).size < Index.limit →
    ∃ x, v.normInf s = .ok x ∧ holds (view.elements s).toList x

theorem everyNorm [Zero T] [Add T] [Mul T] [Magnitude T] {holds : List T → T → Prop}
    (largest : ∀ xs, holds xs (Cells.largest xs)) : EveryNorm T holds := by
  constructor
  · intro c xs held word
    exact ⟨_, held.normInf word, largest _⟩
  · intro r s view v opened measured word
    have held := (View.cellsHold (View.openedSource opened) measured).1
    exact ⟨_, held.normInf word, largest _⟩

theorem normsAttainPeaks : EveryNorm Float Binary64.AttainsPeak ∧
    ∀ n, EveryNorm (Dual Float n) Dual.CarriesPeak :=
  ⟨everyNorm Binary64.largestAttains, fun _ => everyNorm Dual.largestCarries⟩

theorem normsAttainPeaksTie :
    let points : Array (Dual Float 1) := #[⟨1, #v[7]⟩, ⟨-2, #v[3]⟩]
    let slopes : Registry (Dual Float 1) :=
      ⟨[("x", .contiguous (.ofArray points)), ("y", .column ⟨#[⟨2, #v[5]⟩]⟩)]⟩
    ∃ v d, View.openIn slopes (.blocks [.base "x", .base "y"]) = .ok v ∧
      v.normInf slopes = .ok d ∧ Dual.CarriesPeak [⟨1, #v[7]⟩, ⟨-2, #v[3]⟩, ⟨2, #v[5]⟩] d ∧
      ∃ x, View.tailOpened.normInf View.twoBases = .ok x ∧ Binary64.AttainsPeak [2, 3, 4] x := by
  intro points slopes
  have opened : View.openIn slopes (.blocks [.base "x", .base "y"]) =
      .ok (Blocks.layout ⟨[Registry.layout "x", Registry.layout "y"], [0, 2, 3]⟩) := rfl
  obtain ⟨d, ran, carries⟩ :=
    (normsAttainPeaks.2 1).2 slopes slopes _ _ opened rfl (by decide)
  obtain ⟨x, plain, attains⟩ :=
    normsAttainPeaks.1.2 _ _ _ _ View.opensTail rfl (by decide)
  exact ⟨_, d, opened, ran, carries, x, plain, attains⟩

end SignalVector
