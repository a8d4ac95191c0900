import SignalVector.Proofs.Mapped

/-! The slots of dual numbers do not mix. A run keeps the value and any choice of slots to itself,
so it can be made with these slots alone; and what a comparison or a norm chooses is seen from the
values. Of the numbers themselves no law is used. -/
namespace SignalVector

variable {R ι : Type} {m n : Nat}

namespace Dual

def select (slots : Fin m → Fin n) (a : Dual R n) : Dual R m :=
  ⟨a.value, .ofFn fun k => a.derivatives[slots k]⟩

def given [Zero R] (input : ι → Except Failure (Dual R n)) : R ⊕ ι → Except Failure (Dual R n)
  | .inl c => .ok (constant c)
  | .inr i => input i

def signed [One R] [Mul R] [Neg R] (negated : Bool) (a : Dual R n) : Dual R n :=
  if negated then -a else a

@[simp] theorem valueSelect (slots : Fin m → Fin n) (a : Dual R n) :
    (select slots a).value = a.value := rfl

@[simp] theorem slotSelect (slots : Fin m → Fin n) (a : Dual R n) {k : Nat} (h : k < m) :
    (select slots a).derivatives[k] = a.derivatives[slots ⟨k, h⟩] := by
  simp [select]

section Selecting

variable (slots : Fin m → Fin n)

theorem selectConstant [Zero R] (c : R) : select slots (constant c) = constant c :=
  ext rfl fun k h => by simp

theorem selectGiven [Zero R] (input : ι → Except Failure (Dual R n)) (g : R ⊕ ι) :
    given (fun i => select slots <$> input i) g = select slots <$> given input g := by
  cases g with
  | inl c => exact congrArg Except.ok (selectConstant slots c).symm
  | inr i => rfl

theorem selectNeg [One R] [Mul R] [Neg R] (a : Dual R n) : select slots (-a) = -select slots a :=
  ext rfl fun k h => by simp

theorem selectAdd [Add R] (a b : Dual R n) :
    select slots (a + b) = select slots a + select slots b :=
  ext rfl fun k h => by simp

variable [Zero R] [One R] [Add R] [Mul R] [Neg R] [LT R] [DecidableLT R]

theorem selectRespects : RespectsScalars (select slots : Dual R n → Dual R m) where
  zero := selectConstant slots 0
  one := selectConstant slots 1
  neg := selectNeg slots
  add := selectAdd slots
  sub a b := (selectAdd slots a (-b)).trans (by rw [selectNeg]; rfl)
  mul a b := ext rfl fun k h => by simp
  magnitude a := by
    change select slots (if a.value < 0 then -a else a) =
      if a.value < 0 then -select slots a else select slots a
    split
    · exact selectNeg slots a
    · rfl
  larger a b := by
    change select slots (if a.value < b.value then b else a) =
      if a.value < b.value then select slots b else select slots a
    split
    · rfl
    · rfl

end Selecting

theorem valueSigned [One R] [Mul R] [Neg R] {a : Dual R n} {b : Dual R m} (same : a.value = b.value)
    (negated : Bool) : (a.signed negated).value = (b.signed negated).value := by
  cases negated with
  | true => exact congrArg (· * -1) same
  | false => exact same

section Choosing

variable [Zero R] [One R] [Mul R] [Neg R] [LT R] [DecidableLT R]

theorem magnitudeChooses {a : Dual R n} {b : Dual R m} (same : a.value = b.value) :
    ∃ negated, magnitude a = a.signed negated ∧ magnitude b = b.signed negated := by
  by_cases negative : a.value < 0
  · exact ⟨true, if_pos negative, if_pos (same ▸ negative)⟩
  · exact ⟨false, if_neg negative, if_neg (same ▸ negative)⟩

theorem largerChooses {a a' : Dual R n} {b b' : Dual R m} (same : a.value = b.value)
    (same' : a'.value = b'.value) :
    (larger a a' = a ∧ larger b b' = b) ∨ (larger a a' = a' ∧ larger b b' = b') := by
  by_cases less : a.value < a'.value
  · exact .inr ⟨if_pos less, if_pos (same ▸ same' ▸ less)⟩
  · exact .inl ⟨if_neg less, if_neg (same ▸ same' ▸ less)⟩

def Together (as : List (Dual R n)) (bs : List (Dual R m)) (x : Dual R n) (y : Dual R m) : Prop :=
  x.value = y.value ∧ ∃ (i : Nat) (negated : Bool), as[i]?.map (signed negated) = some x ∧
    bs[i]?.map (signed negated) = some y

theorem magnitudesTogether {as : List (Dual R n)} {bs : List (Dual R m)}
    (same : as.map value = bs.map value) :
    List.Forall₂ (fun a b => Together as bs (magnitude a) (magnitude b)) as bs := by
  have length : as.length = bs.length := by simpa using congrArg List.length same
  refine List.forall₂_iff_get.mpr ⟨length, fun i here here' => ?_⟩
  have values : as[i].value = bs[i].value := by simpa [here, here'] using congrArg (·[i]?) same
  obtain ⟨negated, chosen, chosen'⟩ := magnitudeChooses values
  simp only [List.get_eq_getElem, chosen, chosen']
  exact ⟨valueSigned values negated, i, negated, by simp [here], by simp [here']⟩

theorem largestTogether {as : List (Dual R n)} {bs : List (Dual R m)}
    (same : as.map value = bs.map value) (some : as ≠ []) :
    Together as bs (Cells.largest as) (Cells.largest bs) := by
  have step : ∀ {x x' : Dual R n} {y y' : Dual R m}, Together as bs x y → Together as bs x' y' →
      Together as bs (larger x x') (larger y y') := by
    intro x x' y y' left right
    rcases largerChooses left.1 right.1 with ⟨first, first'⟩ | ⟨second, second'⟩
    · rw [first, first']
      exact left
    · rw [second, second']
      exact right
  cases magnitudesTogether same with
  | nil => exact absurd rfl some
  | cons first rest => exact Cells.largestRelated step first rest

structure ChoosesByValues (R : Type) [Zero R] [One R] [Mul R] [Neg R] [LT R] [DecidableLT R]
    (n m : Nat) : Prop where
  magnitude : ∀ (a : Dual R n) (b : Dual R m), a.value = b.value →
    ∃ negated, magnitude a = a.signed negated ∧ magnitude b = b.signed negated
  larger : ∀ (a a' : Dual R n) (b b' : Dual R m), a.value = b.value → a'.value = b'.value →
    (larger a a' = a ∧ larger b b' = b) ∨ (larger a a' = a' ∧ larger b b' = b')
  normInf : ∀ (c : Cells (Dual R n)) (c' : Cells (Dual R m)) as bs, c.Reads as → c'.Reads bs →
    c.Ends → c'.Ends → as.size < Index.limit → as.map value = bs.map value → as ≠ #[] →
    ∃ x y, c.normInf = .ok x ∧ c'.normInf = .ok y ∧ Together as.toList bs.toList x y

theorem choosesByValues : ChoosesByValues R n m where
  magnitude _ _ := magnitudeChooses
  larger _ _ _ _ := largerChooses
  normInf c c' as bs reads reads' ends ends' small same some := by
    have length : as.size = bs.size := by simpa using congrArg Array.size same
    have small' : bs.size < Index.limit := length ▸ small
    refine ⟨_, _, reads.normInf ends small, reads'.normInf ends' small', largestTogether ?_ ?_⟩
    · simpa using congrArg Array.toList same
    · simpa using some

end Choosing

end Dual

open SignalVector.Dual (select given)

/- With one slot this is the run on one derivative, with none the run on the values alone. -/
theorem slotsApart [Zero R] [One R] [Add R] [Mul R] [Neg R] [LT R] [DecidableLT R]
    (slots : Fin m → Fin n) :
    (∀ {ι : Type} (p : Program (R ⊕ ι)) (input : ι → Except Failure (Dual R n)),
      Program.run (given fun i => select slots <$> input i) p #[] =
        Array.map (select slots) <$> Program.run (given input) p #[]) ∧
    (∀ {ι : Type} (p : Program (R ⊕ ι)), p.Scoped 0 → ∀ input : ι → Dual R n,
      ∃ rs, Program.run (given fun i => .ok (input i)) p #[] = .ok rs ∧ rs.size = p.length) ∧
    (∀ (view : View) (r : Registry (Dual R n)), view.Grounded r →
      Matched (fun v v' => ∀ ops : List (Operation (Dual R n)),
        (∀ op ∈ ops, ∀ c ∈ op.operands, View.Shows c) → View.RunsImage (select slots) r v v' ops)
        (View.openIn r view) (View.openIn (r.map (select slots)) view)) ∧
    Dual.ChoosesByValues R n m := by
  have respects : RespectsScalars (select slots : Dual R n → Dual R m) := Dual.selectRespects slots
  refine ⟨fun p input => ?_, fun p written input => ?_, fun view r => View.runsImage respects.graph,
    Dual.choosesByValues⟩
  · have projected := Program.runImage respects (given input) p #[]
    rwa [← funext (Dual.selectGiven slots input), Array.map_empty] at projected
  · have total : given (fun i => .ok (input i)) =
        fun g : R ⊕ _ => Except.ok (ε := Failure) (Sum.elim Dual.constant input g) := by
      funext g
      cases g with
      | inl c => rfl
      | inr i => rfl
    have written : p.Scoped (#[] : Array (Dual R n)).size := written
    obtain ⟨rs, ran, count⟩ := Program.runScoped (Sum.elim Dual.constant input) written
    exact ⟨rs, total ▸ ran, by simpa using count⟩

namespace View

open Operation (runAll)

def slopes (name : String) : Dual Float 2 := ⟨if name == "q" then -3 else 2, #v[1, 4]⟩

theorem slotsApartTail :
    let second : Dual Float 2 → Dual Float 1 := select fun _ => 1
    let product : Program (Float ⊕ String) :=
      [.mul (.leaf (.input (.inr "q"))) (.leaf (.input (.inl 5)))]
    let calls : List (Operation (Dual Float 2)) := [.set 0 (slopes "p"), .get 2, .normInf]
    Program.run (given fun name => .ok (second (slopes name))) product #[] =
        Array.map second <$> Program.run (given fun name => .ok (slopes name)) product #[] ∧
      ∃ v, openIn ((signals.map slopes).map second) lastTwo = .ok v ∧
        (runAll v (calls.map (Operation.map second)) ((signals.map slopes).map second)).1 =
          (runAll lastOpened calls (signals.map slopes)).1.map (Outcome.map second) := by
  intro second product calls
  obtain ⟨programs, -, runs, -⟩ := slotsApart (R := Float) fun _ : Fin 1 => (1 : Fin 2)
  have grounded := groundedSignals.sameShapes (Registry.mapShapes slopes signals)
  have shows : ∀ op ∈ calls, ∀ c ∈ op.operands, Shows c := by simp [calls, Operation.operands]
  refine ⟨programs product fun name => .ok (slopes name), ?_⟩
  have both := runs lastTwo (signals.map slopes) grounded
  rw [opensLast] at both
  generalize opening : openIn ((signals.map slopes).map second) lastTwo = opened at both ⊢
  cases both with
  | ok images => exact ⟨_, rfl, (images calls shows).outcomes⟩

end View

end SignalVector
