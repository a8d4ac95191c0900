import SignalVector.Proofs.Flat
import SignalVector.Proofs.Tracking

/-! What a vector shows at one moment is an array of elements: the size, each read and the slice,
where there is one, agree on it. Everything computed from reading is then a function of that array.
-/
namespace SignalVector

variable {T : Type}

structure Cells.Holds (c : Cells T) (xs : Array T) : Prop where
  size : c.size = xs.size
  get : ∀ i, c.get i = readSlice xs i
  contiguous : ∀ values, c.contiguous = some values → values = xs

/- The same of a vector of which nothing is known outside its size. -/
structure Cells.Reads (c : Cells T) (xs : Array T) : Prop where
  size : c.size = xs.size
  get : ∀ i (inside : i < xs.size), c.get i = .ok xs[i]
  contiguous : ∀ values, c.contiguous = some values → values = xs

def Cells.Ends (c : Cells T) : Prop := ∃ cause, c.get c.size = .error (.refused cause)

namespace Cells

theorem readSliceInside {xs : Array T} {i : Nat} (inside : i < xs.size) :
    readSlice xs i = .ok xs[i] := by
  simp [readSlice, inside]

theorem readSliceOutside {xs : Array T} {i : Nat} (outside : xs.size ≤ i) :
    readSlice xs i = .error (.refused (.outOfRange i xs.size)) := by
  simp [readSlice, outside]

theorem holdsOfArray (xs : Array T) : (ofArray xs).Holds xs where
  size := rfl
  get _ := rfl
  contiguous _ same := (Option.some.inj same).symm

theorem Holds.reads {c : Cells T} {xs : Array T} (h : c.Holds xs) : c.Reads xs where
  size := h.size
  get i inside := (h.get i).trans (readSliceInside inside)
  contiguous := h.contiguous

theorem Holds.ends {c : Cells T} {xs : Array T} (h : c.Holds xs) : c.Ends :=
  ⟨_, (h.get c.size).trans (readSliceOutside (Nat.le_of_eq h.size.symm))⟩

theorem Holds.read {c : Cells T} {xs : Array T} (h : c.Holds xs) (i : Nat) :
    c.read i = readSlice xs i := by
  unfold Cells.read
  cases slice : c.contiguous with
  | none => exact h.get i
  | some values => rw [h.contiguous values slice]

theorem Reads.read {c : Cells T} {xs : Array T} (h : c.Reads xs) {i : Nat} (inside : i < xs.size) :
    c.read i = .ok xs[i] := by
  unfold Cells.read
  cases slice : c.contiguous with
  | none => exact h.get i inside
  | some values =>
    rw [h.contiguous values slice]
    exact readSliceInside inside

theorem Reads.item [Zero T] {c : Cells T} {xs : Array T} (h : c.Reads xs) {i : Nat}
    (inside : i < xs.size) : c.item i = xs[i] := by
  simp only [Cells.item, h.get i inside]

theorem Holds.item [Zero T] {c : Cells T} {xs : Array T} (h : c.Holds xs) {i : Nat}
    (inside : i < xs.size) : c.item i = xs[i] := h.reads.item inside

end Cells

namespace Cursor

variable {c : Cells T} {xs : Array T}

theorem nextHeld (h : c.Holds xs) (small : xs.size < Index.limit) (p : Nat) :
    (Cursor.mk c p).next? = .ok (xs[p]?.map fun x => (x, ⟨c, p + 1⟩)) := by
  unfold next?
  simp only [h.get p, Cells.readSlice]
  cases hx : xs[p]? with
  | none => rfl
  | some x =>
    have bound : p < xs.size := (Array.getElem?_eq_some_iff.mp hx).1
    have word : p + 1 < Index.limit := by omega
    simp only [Index.add, if_pos word]
    rfl

theorem nextRead (h : c.Reads xs) (small : xs.size < Index.limit) {p : Nat} (inside : p < xs.size) :
    (Cursor.mk c p).next? = .ok (some (xs[p], ⟨c, p + 1⟩)) := by
  have word : p + 1 < Index.limit := by omega
  simp only [next?, h.get p inside, Index.add, if_pos word]
  rfl

theorem takeRead (h : c.Reads xs) (small : xs.size < Index.limit) (count p : Nat)
    (inside : p + count ≤ xs.size) :
    (Cursor.mk c p).take count = .ok ((xs.toList.drop p).take count, ⟨c, p + count⟩) := by
  induction count generalizing p with
  | zero => simp [take]
  | succ count ih =>
    have here : p < xs.size := by omega
    have split : xs.toList.drop p = xs[p] :: xs.toList.drop (p + 1) :=
      List.drop_eq_getElem_cons (by simpa using here)
    simp only [take, nextRead h small here, bind, Except.bind, ih (p + 1) (by omega), split,
      List.take_succ_cons, Nat.add_assoc, Nat.add_comm 1 count]
    rfl

theorem takeAllRead (h : c.Reads xs) (small : xs.size < Index.limit) :
    c.cursor.take xs.size = .ok (xs.toList, ⟨c, xs.size⟩) := by
  have taken := takeRead h small xs.size 0 (Nat.le_of_eq (Nat.zero_add _))
  rw [List.drop_zero, List.take_of_length_le (by simp), Nat.zero_add] at taken
  exact taken

theorem takeThrough (h : c.Reads xs) (ends : c.Ends) (small : xs.size < Index.limit) {count p : Nat}
    (started : p ≤ xs.size) (beyond : xs.size < p + count) :
    (Cursor.mk c p).take count = .ok (xs.toList.drop p, ⟨c, xs.size⟩) := by
  induction count generalizing p with
  | zero => omega
  | succ count ih =>
    rcases Nat.lt_or_eq_of_le started with here | rfl
    · have split : xs.toList.drop p = xs[p] :: xs.toList.drop (p + 1) :=
        List.drop_eq_getElem_cons (by simpa using here)
      simp only [take, nextRead h small here, bind, Except.bind, ih here (by omega), split]
      rfl
    · obtain ⟨cause, refused⟩ := ends
      rw [h.size] at refused
      simp only [take, next?, refused, bind, Except.bind]
      rw [List.drop_of_length_le (Nat.le_of_eq Array.length_toList)]
      rfl

theorem takeHeld (h : c.Holds xs) (small : xs.size < Index.limit) (count p : Nat)
    (started : p ≤ xs.size) :
    (Cursor.mk c p).take count =
      .ok ((xs.toList.drop p).take count, ⟨c, min (p + count) xs.size⟩) := by
  rcases Nat.lt_or_ge xs.size (p + count) with beyond | inside
  · have short : (xs.toList.drop p).length ≤ count := by simp; omega
    rw [takeThrough h.reads h.ends small started beyond, List.take_of_length_le short,
      Nat.min_eq_right (Nat.le_of_lt beyond)]
  · rw [takeRead h.reads small count p inside, Nat.min_eq_left inside]

theorem nextSource {c d : Cursor T} {x : T} (shown : c.next? = .ok (some (x, d))) :
    c.cells.get c.position = .ok x ∧ d = ⟨c.cells, c.position + 1⟩ ∧ d.position < Index.limit := by
  unfold next? at shown
  split at shown
  · rename_i read
    obtain ⟨next, word, same⟩ := bindSucceeds shown
    cases same
    simp only [Index.add] at word
    split at word
    · cases word
      exact ⟨read, rfl, by assumption⟩
    · contradiction
  · cases shown
  · cases shown

theorem nextEnds {c : Cursor T} (shown : c.next? = .ok none) :
    ∃ cause, c.cells.get c.position = .error (.refused cause) := by
  unfold next? at shown
  split at shown
  · obtain ⟨_, _, other⟩ := bindSucceeds shown
    cases other
  · exact ⟨_, by assumption⟩
  · cases shown

structure TakeSource (c : Cursor T) (count : Nat) (xs : List T) (last : Cursor T) : Prop where
  reads : ∀ i (inside : i < xs.length), c.cells.get (c.position + i) = .ok xs[i]
  behind : last = ⟨c.cells, c.position + xs.length⟩
  word : xs ≠ [] → last.position < Index.limit
  ends : xs.length = count ∨ ∃ cause, c.cells.get last.position = .error (.refused cause)

theorem takeSource {c last : Cursor T} {count : Nat} {xs : List T}
    (taken : c.take count = .ok (xs, last)) : c.TakeSource count xs last := by
  induction count generalizing c xs with
  | zero =>
    cases taken
    exact ⟨fun _ inside => (nomatch inside), rfl, fun some => absurd rfl some, .inl rfl⟩
  | succ count ih =>
    obtain ⟨shown, next, taken⟩ := bindSucceeds taken
    cases shown with
    | none =>
      cases taken
      exact ⟨fun _ inside => (nomatch inside), rfl, fun some => absurd rfl some, .inr (nextEnds next)⟩
    | some shown =>
      obtain ⟨x, d⟩ := shown
      obtain ⟨⟨ys, d'⟩, behind, whole⟩ := bindSucceeds taken
      cases whole
      obtain ⟨read, rfl, word⟩ := nextSource next
      obtain ⟨each, there, short, ends⟩ := ih behind
      refine ⟨fun i inside => ?_, ?_, fun _ => ?_, ?_⟩
      · cases i with
        | zero => exact read
        | succ i => simpa [Nat.add_assoc, Nat.add_comm 1 i] using each i (Nat.lt_of_succ_lt_succ inside)
      · rw [there, List.length_cons, Nat.add_assoc, Nat.add_comm 1]
      · cases ys with
        | nil => exact there ▸ word
        | cons y ys => exact short (List.cons_ne_nil y ys)
      · rwa [List.length_cons, Nat.add_right_cancel_iff]

/- Whatever a vector answers at its size and behind it. -/
theorem restSource {c : Cells T} {xs : List T} (walked : c.cursor.rest = .ok xs) :
    (∀ i (inside : i < xs.length), c.get i = .ok xs[i]) ∧
      ∃ cause, c.get xs.length = .error (.refused cause) := by
  obtain ⟨⟨ys, last⟩, taken, same⟩ := bindSucceeds walked
  cases same
  obtain ⟨each, there, short, ends⟩ := takeSource taken
  simp only [Cells.cursor, Nat.zero_add] at each there
  subst there
  refine ⟨each, ends.resolve_left fun all => ?_⟩
  have some : xs ≠ [] := fun none => by subst none; cases all
  exact absurd (all ▸ short some) (Nat.lt_irrefl _)

theorem restRead (h : c.Reads xs) (ends : c.Ends) (small : xs.size < Index.limit) :
    c.cursor.rest = .ok xs.toList := by
  have taken := takeThrough (p := 0) h ends small (Nat.zero_le _) (by omega : xs.size < 0 + Index.limit)
  simp only [rest, Cells.cursor, taken]
  rfl

end Cursor

namespace Cells

variable {c : Cells T} {xs : Array T}

def largest [Zero T] [Magnitude T] (xs : List T) : T :=
  match xs.map magnitude with
  | [] => 0
  | m :: ms => ms.foldl larger m

theorem largestCons [Zero T] [Magnitude T] (x : T) (xs : List T) :
    largest (x :: xs) = (xs.map magnitude).foldl larger (magnitude x) := rfl

theorem Reads.toArray (h : c.Reads xs) (ends : c.Ends) (small : xs.size < Index.limit) :
    c.toArray = .ok xs := by
  simp only [Cells.toArray, Cursor.restRead h ends small]
  rfl

theorem Reads.normInf [Zero T] [Magnitude T] (h : c.Reads xs) (ends : c.Ends)
    (small : xs.size < Index.limit) : c.normInf = .ok (largest xs.toList) := by
  simp only [Cells.normInf, Cursor.restRead h ends small, bind, Except.bind, largest]
  cases xs.toList.map magnitude with
  | nil => rfl
  | cons m ms => rfl

theorem Holds.normInf [Zero T] [Magnitude T] (h : c.Holds xs) (small : xs.size < Index.limit) :
    c.normInf = .ok (largest xs.toList) := h.reads.normInf h.ends small

theorem Holds.walk (h : c.Holds xs) (small : xs.size < Index.limit) (count : Nat) :
    c.walk count =
      .ok ⟨xs.size, xs.toList.take count, xs.size - min count xs.size, xs[count]?⟩ := by
  have taken := Cursor.takeHeld h small count 0 (Nat.zero_le _)
  simp only [List.drop_zero, Nat.zero_add] at taken
  simp only [Cells.walk, cursor, taken, bind, Except.bind, Cursor.nextHeld h small, Cursor.length,
    h.size, Nat.sub_zero]
  by_cases all : count ≤ xs.size
  · simp [Nat.min_eq_left all, Function.comp_def, pure, Except.pure]
  · have beyond : xs.size ≤ count := by omega
    simp [Nat.min_eq_right beyond, Array.getElem?_eq_none beyond, pure, Except.pure]

theorem combineFull (f : T → T → T) {items target : Array T} (same : items.size = target.size) :
    Buffer.combine f items target = Array.zipWith f target items := by
  apply Array.ext
  · simp [Buffer.combine, same]
  · intro i inside _
    have there : i < items.size := by simpa [Buffer.combine, same] using inside
    simp [Buffer.combine, there]

theorem Reads.combineInto (f : T → T → T) (h : c.Reads xs) (small : xs.size < Index.limit) :
    c.combineInto f = Flat.combine f xs := by
  funext target
  by_cases same : xs.size = target.size
  · have taken := Cursor.takeAllRead h small
    rw [same] at taken
    rw [Flat.combineFits same, ← combineFull f same]
    simp only [Cells.combineInto, Update.getTheBind, h.size, checkSizeSame same, taken, Update.okBind]
    rfl
  · rw [Flat.combineMisfit same]
    simp only [Cells.combineInto, Update.getTheBind, h.size, checkSizeOther same, Update.errorBind]

end Cells

def Cells.Coherent (c : Cells T) : Prop := ∃ xs, c.Holds xs

def Cells.Readable (c : Cells T) : Prop := ∃ xs, c.Reads xs

theorem Cells.Coherent.readable {c : Cells T} : c.Coherent → c.Readable
  | ⟨xs, held⟩ => ⟨xs, held.reads⟩

namespace Operands

theorem checkFits {size : Nat} {terms : List (T × Cells T)}
    (fits : ∀ t ∈ terms, t.2.size = size) : check size terms = .ok ⟨size, terms, fits⟩ := by
  unfold check
  split
  · rename_i t found
    have wrong := List.find?_some found
    have right := fits t (List.mem_of_find?_eq_some found)
    simp [right] at wrong
  · rfl

theorem checkMisfit {size : Nat} {terms : List (T × Cells T)} {t : T × Cells T}
    (found : terms.find? (fun t => t.2.size ≠ size) = some t) :
    check size terms = .error (.refused (.sizeMismatch size t.2.size)) := by
  unfold check
  split
  · rename_i t' found'
    cases Option.some.inj (found.symm.trans found')
    rfl
  · rename_i none
    rw [found] at none
    contradiction

theorem misfit {size : Nat} {terms : List (T × Cells T)}
    (other : ¬ ∀ t ∈ terms, t.2.size = size) :
    ∃ t, terms.find? (fun t => t.2.size ≠ size) = some t := by
  cases found : terms.find? (fun t => t.2.size ≠ size) with
  | some t => exact ⟨t, rfl⟩
  | none => exact absurd (by simpa using found) other

theorem foldlOk {β ι : Type} {f : β → ι → Except Failure β} {g : β → ι → β} {items : List ι}
    (each : ∀ i ∈ items, ∀ b, f b i = .ok (g b i)) (start : β) :
    items.foldlM f start = .ok (items.foldl g start) := by
  induction items generalizing start with
  | nil => rfl
  | cons i items ih =>
    simp only [List.foldlM_cons, each i List.mem_cons_self, bind, Except.bind, List.foldl_cons]
    exact ih (fun j member => each j (List.mem_cons_of_mem i member)) (g start i)

variable [Zero T] [Add T] [Mul T]

theorem sumAtReadable {o : Operands T} (readable : ∀ t ∈ o.terms, t.2.Readable) {i : Nat}
    (inside : i < o.size) : o.sumAt i = .ok (sumOfTerms o.terms i) := by
  refine foldlOk (fun t member sum => ?_) 0
  obtain ⟨xs, reads⟩ := readable t member
  have there : i < xs.size := reads.size ▸ (o.sizes t member).symm ▸ inside
  simp only [reads.read there, reads.item there, bind, Except.bind]
  rfl

end Operands

end SignalVector
