import Mathlib.Data.List.Forall2
import SignalVector.Proofs.Runs

/-! The same calls over two kinds of scalars. Where the scalar operations respect a relation between
the two, so does every vector operation: both runs fail at the same calls in the same way, and all
that they return or write is related. -/
namespace SignalVector

open Update

variable {T T' : Type}

structure Respects [Zero T] [One T] [Add T] [Mul T] [Neg T] [Magnitude T] [Zero T'] [One T'] [Add T']
    [Mul T'] [Neg T'] [Magnitude T'] (rel : T → T' → Prop) : Prop where
  zero : rel 0 0
  one : rel 1 1
  add : ∀ {x x' y y'}, rel x x' → rel y y' → rel (x + y) (x' + y')
  mul : ∀ {x x' y y'}, rel x x' → rel y y' → rel (x * y) (x' * y')
  neg : ∀ {x x'}, rel x x' → rel (-x) (-x')
  magnitude : ∀ {x x'}, rel x x' → rel (magnitude x) (magnitude x')
  larger : ∀ {x x' y y'}, rel x x' → rel y y' → rel (larger x y) (larger x' y')

structure Pointwise (rel : T → T' → Prop) (xs : Array T) (xs' : Array T') : Prop where
  size : xs.size = xs'.size
  each : ∀ i (h : i < xs.size) (h' : i < xs'.size), rel xs[i] xs'[i]

inductive Matched {α α' : Type} (related : α → α' → Prop) : Except Failure α → Except Failure α' → Prop
  | ok {a : α} {a' : α'} (results : related a a') : Matched related (.ok a) (.ok a')
  | error (e : Failure) : Matched related (.error e) (.error e)

theorem Matched.bind {α α' β β' : Type} {R : α → α' → Prop} {S : β → β' → Prop}
    {x : Except Failure α} {x' : Except Failure α'} {k : α → Except Failure β}
    {k' : α' → Except Failure β'} (first : Matched R x x')
    (rest : ∀ a a', R a a' → Matched S (k a) (k' a')) : Matched S (x >>= k) (x' >>= k') := by
  cases first with
  | ok results => exact rest _ _ results
  | error e => exact .error e

theorem Matched.either {α α' : Type} {R : α → α' → Prop} {x : Except Failure α}
    {x' : Except Failure α'} (matched : Matched R x x') :
    (∃ e, x = .error e ∧ x' = .error e) ∨ ∃ a a', x = .ok a ∧ x' = .ok a' ∧ R a a' := by
  cases matched with
  | ok results => exact .inr ⟨_, _, rfl, rfl, results⟩
  | error e => exact .inl ⟨e, rfl, rfl⟩

def Cells.Matches (rel : T → T' → Prop) (c : Cells T) (c' : Cells T') : Prop :=
  ∃ xs xs', c.Holds xs ∧ c'.Holds xs' ∧ Pointwise rel xs xs'

def Operands.Matches (rel : T → T' → Prop) : List (T × Cells T) → List (T' × Cells T') → Prop :=
  List.Forall₂ fun t t' => rel t.1 t'.1 ∧ t.2.Matches rel t'.2

inductive Link.Related (rel : T → T' → Prop) : Link T → Link T' → Prop
  | add {x : Cells T} {x' : Cells T'} (matched : x.Matches rel x') : Related rel (.add x) (.add x')
  | subtract {x : Cells T} {x' : Cells T'} (matched : x.Matches rel x') :
      Related rel (.subtract x) (.subtract x')
  | addScaled {scale : T} {scale' : T'} {x : Cells T} {x' : Cells T'} (scales : rel scale scale')
      (matched : x.Matches rel x') : Related rel (.addScaled scale x) (.addScaled scale' x')
  | addScaledAll {terms : List (T × Cells T)} {terms' : List (T' × Cells T')}
      (matched : Operands.Matches rel terms terms') :
      Related rel (.addScaledAll terms) (.addScaledAll terms')

inductive Operation.Related (rel : T → T' → Prop) : Operation T → Operation T' → Prop
  | get (index : Nat) : Related rel (.get index) (.get index)
  | set (index : Nat) {x : T} {x' : T'} (values : rel x x') :
      Related rel (.set index x) (.set index x')
  | setFrom {c : Cells T} {c' : Cells T'} (sources : c.Matches rel c') :
      Related rel (.setFrom c) (.setFrom c')
  | assign {xs : Array T} {xs' : Array T'} (values : Pointwise rel xs xs') :
      Related rel (.assign xs) (.assign xs')
  | clear : Related rel .clear .clear
  | toArray : Related rel .toArray .toArray
  | copyInto {target : Option (Array T)} {target' : Option (Array T')}
      (targets : Option.Rel (Pointwise rel) target target') :
      Related rel (.copyInto target) (.copyInto target')
  | scaleAndAddInto {scale : T} {scale' : T'} {target : Option (Array T)}
      {target' : Option (Array T')} (scales : rel scale scale')
      (targets : Option.Rel (Pointwise rel) target target') :
      Related rel (.scaleAndAddInto scale target) (.scaleAndAddInto scale' target')
  | chain {links : List (Link T)} {links' : List (Link T')}
      (each : List.Forall₂ (Link.Related rel) links links') :
      Related rel (.chain links) (.chain links')
  | normInf : Related rel .normInf .normInf
  | walk (count : Nat) : Related rel (.walk count) (.walk count)
  | refresh {frame : Frame T} {frame' : Frame T'} (frames : Pointwise rel frame.values frame'.values) :
      Related rel (.refresh frame) (.refresh frame')
  | restore {frame : Frame T} {frame' : Frame T'} (frames : Pointwise rel frame.values frame'.values) :
      Related rel (.restore frame) (.restore frame')

structure Cells.Walk.Related (rel : T → T' → Prop) (w : Cells.Walk T) (w' : Cells.Walk T') :
    Prop where
  before : w.before = w'.before
  items : List.Forall₂ rel w.items w'.items
  after : w.after = w'.after
  next : Option.Rel rel w.next w'.next

inductive Answer.Related (rel : T → T' → Prop) : Answer T → Answer T' → Prop
  | done : Related rel .done .done
  | scalar {x : T} {x' : T'} (values : rel x x') : Related rel (.scalar x) (.scalar x')
  | values {xs : Array T} {xs' : Array T'} (each : Pointwise rel xs xs') :
      Related rel (.values xs) (.values xs')
  | walk {w : Cells.Walk T} {w' : Cells.Walk T'} (walks : w.Related rel w') :
      Related rel (.walk w) (.walk w')

structure Outcome.Related (rel : T → T' → Prop) (o : Outcome T) (o' : Outcome T') : Prop where
  result : Matched (Answer.Related rel) o.result o'.result
  buffer : Option.Rel (Pointwise rel) o.buffer o'.buffer

namespace Update

variable {σ σ' τ τ' ι ι' : Type} {R : σ → σ' → Prop}

inductive Ends (R : σ → σ' → Prop) :
    EStateM.Result Failure σ Unit → EStateM.Result Failure σ' Unit → Prop
  | ok {s : σ} {s' : σ'} (states : R s s') : Ends R (.ok () s) (.ok () s')
  | error (e : Failure) {s : σ} {s' : σ'} (states : R s s') : Ends R (.error e s) (.error e s')

def Relates (R : σ → σ' → Prop) (u : Update σ Unit) (u' : Update σ' Unit) : Prop :=
  ∀ s s', R s s' → Ends R (u s) (u' s')

theorem relatesForM {u : ι → Update σ Unit} {u' : ι' → Update σ' Unit} {items : List ι}
    {items' : List ι'} (each : List.Forall₂ (fun i i' => Relates R (u i) (u' i')) items items') :
    Relates R (items.forM u) (items'.forM u') := by
  induction each with
  | nil => exact fun s s' states => .ok states
  | @cons i i' items items' first _ ih =>
    intro s s' states
    have here := first s s' states
    cases run : u i s with
    | ok a t =>
      cases run' : u' i' s' with
      | ok a' t' =>
        rw [run, run'] at here
        cases here with
        | ok states =>
          rw [forMCons items run, forMCons items' run']
          exact ih _ _ states
      | error e t' => rw [run, run'] at here; nomatch here
    | error e t =>
      cases run' : u' i' s' with
      | ok a' t' => rw [run, run'] at here; nomatch here
      | error d t' =>
        rw [run, run'] at here
        cases here with
        | error _ states =>
          rw [forMStops items run, forMStops items' run']
          exact .error e states

theorem endsWrap {S : τ → τ' → Prop} {form : σ → τ} {form' : σ' → τ'} {u : Update σ Unit}
    {u' : Update σ' Unit} {s : σ} {s' : σ'} (ends : Ends R (u s) (u' s'))
    (forms : ∀ s s', R s s' → S (form s) (form' s')) : Ends S (u.wrap form s) (u'.wrap form' s') := by
  simp only [wrap]
  generalize u s = r at ends
  generalize u' s' = r' at ends
  cases ends with
  | ok states => exact .ok (forms _ _ states)
  | error e states => exact .error e (forms _ _ states)

end Update

namespace Pointwise

variable {rel : T → T' → Prop} {xs ys : Array T} {xs' ys' : Array T'}

theorem toList (h : Pointwise rel xs xs') : List.Forall₂ rel xs.toList xs'.toList := by
  refine List.forall₂_iff_get.mpr ⟨by simpa using h.size, fun i inside inside' => ?_⟩
  exact h.each i (by simpa using inside) (by simpa using inside')

theorem entry (h : Pointwise rel xs xs') (i : Nat) : Option.Rel rel xs[i]? xs'[i]? := by
  by_cases inside : i < xs.size
  · have inside' : i < xs'.size := h.size ▸ inside
    rw [Array.getElem?_eq_getElem inside, Array.getElem?_eq_getElem inside']
    exact .some (h.each i inside inside')
  · have outside := Nat.not_lt.mp inside
    rw [Array.getElem?_eq_none outside, Array.getElem?_eq_none (h.size ▸ outside)]
    exact .none

theorem modify (h : Pointwise rel xs xs') (index : Nat) {f : T → T} {f' : T' → T'}
    (step : ∀ {x x'}, rel x x' → rel (f x) (f' x')) :
    Pointwise rel (xs.modify index f) (xs'.modify index f') where
  size := by simpa using h.size
  each i inside inside' := by
    have here := h.each i (by simpa using inside) (by simpa using inside')
    simp only [Array.getElem_modify]
    split
    · exact step here
    · exact here

theorem zipWith (h : Pointwise rel xs xs') (h' : Pointwise rel ys ys') {f : T → T → T}
    {f' : T' → T' → T'} (step : ∀ {x x' y y'}, rel x x' → rel y y' → rel (f x y) (f' x' y')) :
    Pointwise rel (Array.zipWith f xs ys) (Array.zipWith f' xs' ys') where
  size := by simp [h.size, h'.size]
  each i inside inside' := by
    simp only [Array.size_zipWith] at inside inside'
    simp only [Array.getElem_zipWith]
    exact step (h.each i (by omega) (by omega)) (h'.each i (by omega) (by omega))

theorem replicate (n : Nat) {x : T} {x' : T'} (values : rel x x') :
    Pointwise rel (Array.replicate n x) (Array.replicate n x') where
  size := by simp
  each i _ _ := by simpa using values

theorem mapIdx (h : Pointwise rel xs xs') {f : Nat → T → T} {f' : Nat → T' → T'}
    (step : ∀ i < xs.size, ∀ {x x'}, rel x x' → rel (f i x) (f' i x')) :
    Pointwise rel (xs.mapIdx f) (xs'.mapIdx f') where
  size := by simpa using h.size
  each i inside inside' := by
    simp only [Array.size_mapIdx] at inside inside'
    simp only [Array.getElem_mapIdx]
    exact step i inside (h.each i inside inside')

end Pointwise

theorem Cells.Matches.size {rel : T → T' → Prop} {c : Cells T} {c' : Cells T'}
    (matched : c.Matches rel c') : c.size = c'.size := by
  obtain ⟨xs, xs', held, held', same⟩ := matched
  rw [held.size, held'.size, same.size]

theorem Operands.matchesCoherent {rel : T → T' → Prop} {terms : List (T × Cells T)}
    {terms' : List (T' × Cells T')} (matched : Operands.Matches rel terms terms') :
    (∀ t ∈ terms, t.2.Coherent) ∧ ∀ t ∈ terms', t.2.Coherent := by
  induction matched with
  | nil => exact ⟨fun _ member => (nomatch member), fun _ member => (nomatch member)⟩
  | cons first _ ih =>
    obtain ⟨-, xs, xs', held, held', -⟩ := first
    exact ⟨List.forall_mem_cons.mpr ⟨⟨xs, held⟩, ih.1⟩, List.forall_mem_cons.mpr ⟨⟨xs', held'⟩, ih.2⟩⟩

theorem Operands.findMatches {rel : T → T' → Prop} {terms : List (T × Cells T)}
    {terms' : List (T' × Cells T')} (matched : Operands.Matches rel terms terms') (size : Nat) :
    Option.Rel (fun t t' => t.2.size = t'.2.size) (terms.find? fun t => t.2.size ≠ size)
      (terms'.find? fun t => t.2.size ≠ size) := by
  induction matched with
  | nil => exact .none
  | @cons t t' terms terms' first _ ih =>
    have same := first.2.size
    by_cases fits : t.2.size = size
    · have fits' : t'.2.size = size := same.symm.trans fits
      simpa [List.find?_cons, fits, fits'] using ih
    · have other : t'.2.size ≠ size := same ▸ fits
      simp only [List.find?_cons, decide_eq_true fits, decide_eq_true other]
      exact .some same

/- What is known of the largest so far may be more than what is known of the numbers to come. -/
theorem Cells.largestRelated [Zero T] [Magnitude T] [Zero T'] [Magnitude T']
    {rel each : T → T' → Prop}
    (step : ∀ {x x' y y'}, rel x x' → each y y' → rel (larger x y) (larger x' y')) {x : T} {x' : T'}
    {xs : List T} {xs' : List T'} (first : rel (magnitude x) (magnitude x'))
    (rest : List.Forall₂ (fun y y' => each (magnitude y) (magnitude y')) xs xs') :
    rel (largest (x :: xs)) (largest (x' :: xs')) := by
  have fold : ∀ {m : T} {m' : T'}, rel m m' →
      rel ((xs.map magnitude).foldl larger m) ((xs'.map magnitude).foldl larger m') := by
    induction rest with
    | nil => exact id
    | cons next _ ih => exact fun sofar => ih (step sofar next)
  exact fold first

namespace Flat

variable {rel : T → T' → Prop} {xs : Array T} {xs' : Array T'}

theorem modifyRelates (index : Nat) {f : T → T} {f' : T' → T'}
    (step : ∀ {x x'}, rel x x' → rel (f x) (f' x')) :
    Relates (Pointwise rel) (modify index f) (modify index f') := by
  intro xs xs' same
  simp only [modify, same.size]
  split
  · exact .ok (same.modify index step)
  · exact .error _ same

theorem assignRelates {values : Array T} {values' : Array T'}
    (new : Pointwise rel values values') :
    Relates (Pointwise rel) (assign values) (assign values') := by
  intro xs xs' same
  simp only [assign, same.size, new.size]
  split
  · exact .ok new
  · exact .error _ same

theorem combineRelates (same : Pointwise rel xs xs') {f : T → T → T} {f' : T' → T' → T'}
    (step : ∀ {x x' y y'}, rel x x' → rel y y' → rel (f x y) (f' x' y')) :
    Relates (Pointwise rel) (combine f xs) (combine f' xs') := by
  intro target target' targets
  simp only [combine, same.size, targets.size]
  split
  · exact .ok (targets.zipWith same step)
  · exact .error _ targets

variable [Zero T] [One T] [Add T] [Mul T] [Neg T] [Magnitude T] [Zero T'] [One T'] [Add T'] [Mul T']
  [Neg T'] [Magnitude T'] (respects : Respects rel)

include respects

theorem largestRelated {xs : List T} {xs' : List T'} (same : List.Forall₂ rel xs xs') :
    rel (Cells.largest xs) (Cells.largest xs') := by
  cases same with
  | nil => exact respects.zero
  | cons first rest =>
    exact Cells.largestRelated respects.larger (respects.magnitude first)
      (rest.imp fun _ _ => respects.magnitude)

theorem sumRelated {terms : List (T × Cells T)} {terms' : List (T' × Cells T')}
    (matched : Operands.Matches rel terms terms') {size i : Nat} (inside : i < size)
    (fits : ∀ t ∈ terms, t.2.size = size) : rel (sumOfTerms terms i) (sumOfTerms terms' i) := by
  have fold : ∀ {sum : T} {sum' : T'}, rel sum sum' →
      rel (terms.foldl (fun sum t => sum + t.2.item i * t.1) sum)
        (terms'.foldl (fun sum t => sum + t.2.item i * t.1) sum') := by
    induction matched with
    | nil => exact id
    | @cons t t' terms terms' first _ ih =>
      intro sum sum' sums
      obtain ⟨scales, xs, xs', held, held', same⟩ := first
      have here : i < xs.size := by rw [← held.size, fits t List.mem_cons_self]; exact inside
      have here' : i < xs'.size := same.size ▸ here
      refine ih (fun t member => fits t (List.mem_cons_of_mem _ member)) ?_
      dsimp only
      rw [held.item here, held'.item here']
      exact respects.add sums (respects.mul (same.each i here here') scales)
  exact fold respects.zero

theorem addScaledRelates {terms : List (T × Cells T)} {terms' : List (T' × Cells T')}
    (matched : Operands.Matches rel terms terms') :
    Relates (Pointwise rel) (layout.addScaledAll terms) (layout.addScaledAll terms') := by
  intro xs xs' same
  have found := Operands.findMatches matched xs.size
  cases first : terms.find? (fun t => t.2.size ≠ xs.size) with
  | none =>
    cases first' : terms'.find? (fun t => t.2.size ≠ xs.size) with
    | none =>
      have fits : ∀ t ∈ terms, t.2.size = xs.size := by simpa using first
      have fits' : ∀ t ∈ terms', t.2.size = xs.size := by simpa using first'
      rw [Layout.addScaledFits (v := layout) rfl fits,
        Layout.addScaledFits (v := layout) same.size.symm fits']
      exact .ok (same.mapIdx fun i inside x x' old =>
        respects.add old (sumRelated respects matched inside fits))
    | some t' => rw [first, first'] at found; nomatch found
  | some t =>
    cases first' : terms'.find? (fun t => t.2.size ≠ xs.size) with
    | none => rw [first, first'] at found; nomatch found
    | some t' =>
      rw [first, first'] at found
      cases found with
      | some sizes =>
        rw [Layout.addScaledMisfit (v := layout) rfl first,
          Layout.addScaledMisfit (v := layout) same.size.symm first', sizes]
        exact .error _ same

theorem linkMatches {link : Link T} {link' : Link T'} (related : link.Related rel link') :
    Operands.Matches rel link.terms link'.terms := by
  cases related with
  | add matched => exact .cons ⟨respects.one, matched⟩ .nil
  | subtract matched => exact .cons ⟨respects.neg respects.one, matched⟩ .nil
  | addScaled scales matched => exact .cons ⟨scales, matched⟩ .nil
  | addScaledAll matched => exact matched

theorem chainRelates {links : List (Link T)} {links' : List (Link T')}
    (each : List.Forall₂ (Link.Related rel) links links') :
    Relates (Pointwise rel) (layout.chain links) (layout.chain links') :=
  relatesForM (each.imp fun _ _ related => addScaledRelates respects (linkMatches respects related))

end Flat

namespace Operation

section Ends

variable {σ σ' β β' : Type} {rel : T → T' → Prop} {R : σ → σ' → Prop}

def Agreement (rel : T → T' → Prop) (R : σ → σ' → Prop) (a : Outcome T × σ) (a' : Outcome T' × σ') :
    Prop :=
  a.1.Related rel a'.1 ∧ R a.2 a'.2

theorem readingRelated {answer : Except Failure (Answer T)} {answer' : Except Failure (Answer T')}
    (matched : Matched (Answer.Related rel) answer answer') {s : σ} {s' : σ'} (states : R s s') :
    Agreement rel R (reading answer s) (reading answer' s') :=
  ⟨⟨matched, .none⟩, states⟩

theorem writingRelated {u : Update σ Unit} {u' : Update σ' Unit} (related : Relates R u u') {s : σ}
    {s' : σ'} (states : R s s') : Agreement rel R (writing u s) (writing u' s') := by
  have ends := related s s' states
  simp only [writing]
  generalize u s = r at ends
  generalize u' s' = r' at ends
  cases ends with
  | ok states => exact ⟨⟨.ok .done, .none⟩, states⟩
  | error e states => exact ⟨⟨.error e, .none⟩, states⟩

theorem fillingRelated {S : β → β' → Prop} {buffer : β → Option (Array T)}
    {buffer' : β' → Option (Array T')} {r : EStateM.Result Failure β Unit}
    {r' : EStateM.Result Failure β' Unit} (ends : Ends S r r')
    (shown : ∀ b b', S b b' → Option.Rel (Pointwise rel) (buffer b) (buffer' b')) {s : σ} {s' : σ'}
    (states : R s s') : Agreement rel R (filling buffer r s) (filling buffer' r' s') := by
  cases ends with
  | ok buffers => exact ⟨⟨.ok .done, shown _ _ buffers⟩, states⟩
  | error e buffers => exact ⟨⟨.error e, shown _ _ buffers⟩, states⟩

theorem targetRelates {copy : Update (Array T) Unit} {copy' : Update (Array T') Unit}
    (related : Relates (Pointwise rel) copy copy') :
    Relates (Option.Rel (Pointwise rel)) (Layout.intoTarget copy) (Layout.intoTarget copy') := by
  intro target target' targets
  cases targets with
  | none => exact .error _ .none
  | some same => exact endsWrap (related _ _ same) fun _ _ => .some

end Ends

variable {rel : T → T' → Prop}

theorem readRelated {xs : Array T} {xs' : Array T'} (same : Pointwise rel xs xs') (index : Nat) :
    Matched (Answer.Related rel) (.scalar <$> Cells.readSlice xs index)
      (.scalar <$> Cells.readSlice xs' index) := by
  have here := same.entry index
  simp only [Cells.readSlice, same.size]
  generalize xs[index]? = x at here
  generalize xs'[index]? = x' at here
  cases here with
  | some related => exact .ok (.scalar related)
  | none => exact .error _

theorem walkRelated {xs : Array T} {xs' : Array T'} (same : Pointwise rel xs xs') (count : Nat) :
    Cells.Walk.Related rel ⟨xs.size, xs.toList.take count, xs.size - min count xs.size, xs[count]?⟩
      ⟨xs'.size, xs'.toList.take count, xs'.size - min count xs'.size, xs'[count]?⟩ where
  before := same.size
  items := List.forall₂_take count same.toList
  after := congrArg (fun n => n - min count n) same.size
  next := same.entry count

variable [Zero T] [One T] [Add T] [Mul T] [Neg T] [Magnitude T] [Zero T'] [One T'] [Add T'] [Mul T']
  [Neg T'] [Magnitude T'] (respects : Respects rel)

include respects

theorem linksCoherent {links : List (Link T)} {links' : List (Link T')}
    (each : List.Forall₂ (Link.Related rel) links links') :
    (∀ link ∈ links, ∀ x ∈ link.vectors, x.Coherent) ∧
      ∀ link ∈ links', ∀ x ∈ link.vectors, x.Coherent := by
  induction each with
  | nil => exact ⟨fun _ member => (nomatch member), fun _ member => (nomatch member)⟩
  | cons first _ ih =>
    have here := Operands.matchesCoherent (Flat.linkMatches respects first)
    exact ⟨List.forall_mem_cons.mpr ⟨Link.eachVector.mpr here.1, ih.1⟩,
      List.forall_mem_cons.mpr ⟨Link.eachVector.mpr here.2, ih.2⟩⟩

theorem operandsCoherent {op : Operation T} {op' : Operation T'} (related : op.Related rel op') :
    (∀ c ∈ op.operands, c.Coherent) ∧ ∀ c ∈ op'.operands, c.Coherent := by
  cases related with
  | setFrom sources =>
    obtain ⟨xs, xs', held, held', -⟩ := sources
    exact ⟨List.forall_mem_singleton.mpr ⟨xs, held⟩, List.forall_mem_singleton.mpr ⟨xs', held'⟩⟩
  | chain each =>
    obtain ⟨left, right⟩ := linksCoherent respects each
    simp only [operands, List.mem_flatMap]
    exact ⟨fun x ⟨link, member, there⟩ => left link member x there,
      fun x ⟨link, member, there⟩ => right link member x there⟩
  | _ => exact ⟨fun _ member => (nomatch member), fun _ member => (nomatch member)⟩

theorem runFlatRelated {op : Operation T} {op' : Operation T'} (related : op.Related rel op')
    {xs : Array T} {xs' : Array T'} (same : Pointwise rel xs xs') (small : xs.size < Index.limit) :
    Agreement rel (Pointwise rel) (op.run Flat.layout xs) (op'.run Flat.layout xs') := by
  have small' : xs'.size < Index.limit := same.size ▸ small
  have held := Cells.holdsOfArray xs
  have held' := Cells.holdsOfArray xs'
  cases related with
  | get index => exact readingRelated (readRelated same index) same
  | set index values => exact writingRelated (Flat.modifyRelates index fun _ => values) same
  | setFrom sources =>
    obtain ⟨ys, ys', source, source', values⟩ := sources
    simp only [run, Flat.setFromReads source.reads, Flat.setFromReads source'.reads]
    exact writingRelated (Flat.assignRelates values) same
  | assign values => exact writingRelated (Flat.assignRelates values) same
  | clear =>
    refine writingRelated (fun ys ys' equal => ?_) same
    have zeros := Pointwise.replicate ys.size respects.zero
    exact .ok (equal.size ▸ zeros)
  | toArray => exact readingRelated (.ok (.values same)) same
  | copyInto targets =>
    have copies := Flat.combineRelates same fun _ item => item
    exact fillingRelated (targetRelates copies _ _ targets) (fun _ _ => id) same
  | scaleAndAddInto scales targets =>
    have adds := Flat.combineRelates same fun old item =>
      respects.add old (respects.mul scales item)
    exact fillingRelated (targetRelates adds _ _ targets) (fun _ _ => id) same
  | chain each => exact writingRelated (Flat.chainRelates respects each) same
  | normInf =>
    have norms : Matched (Answer.Related rel) (.scalar <$> Flat.layout.normInf xs)
        (.scalar <$> Flat.layout.normInf xs') := by
      simp only [Layout.normInf, Flat.layout, held.normInf small, held'.normInf small']
      exact .ok (.scalar (Flat.largestRelated respects same.toList))
    exact readingRelated norms same
  | walk count =>
    have walks : Matched (Answer.Related rel) (.walk <$> (Flat.layout.cells xs).walk count)
        (.walk <$> (Flat.layout.cells xs').walk count) := by
      simp only [Flat.layout, held.walk small, held'.walk small']
      exact .ok (.walk (walkRelated same count))
    exact readingRelated walks same
  | @refresh frame frame' frames =>
    have copies := Flat.combineRelates same fun _ item => item
    have ends : Ends (fun f f' => Pointwise rel f.values f'.values)
        (Frame.refresh Flat.layout xs frame) (Frame.refresh Flat.layout xs' frame') :=
      endsWrap (copies _ _ frames) fun _ _ => id
    exact fillingRelated ends (fun _ _ => .some) same
  | restore frames => exact writingRelated (Flat.assignRelates frames) same

section Lawful

variable {σ σ' : Type} {v : Layout σ T} {v' : Layout σ' T'} {inv : σ → Prop} {inv' : σ' → Prop}
  {size size' : Nat} {elements : σ → Array T} {elements' : σ' → Array T'}
  (lawful : v.Lawful inv size elements) (lawful' : v'.Lawful inv' size' elements')
  (small : size < Index.limit) (small' : size' < Index.limit)

include lawful lawful' small small'

theorem runAllRelated {ops : List (Operation T)} {ops' : List (Operation T')}
    (related : List.Forall₂ (Operation.Related rel) ops ops') {s : σ} {s' : σ'} (hs : inv s)
    (hs' : inv' s') (same : Pointwise rel (elements s) (elements' s')) :
    List.Forall₂ (Outcome.Related rel) (runAll v ops s).1 (runAll v' ops' s').1 ∧
      Pointwise rel (elements (runAll v ops s).2) (elements' (runAll v' ops' s').2) := by
  induction related generalizing s s' with
  | nil => exact ⟨.nil, same⟩
  | cons first _ ih =>
    obtain ⟨coherent, coherent'⟩ := operandsCoherent respects first
    obtain ⟨outcome, shown, kept⟩ := runAgrees lawful small _ coherent hs
    obtain ⟨outcome', shown', kept'⟩ := runAgrees lawful' small' _ coherent' hs'
    obtain ⟨answers, values⟩ := runFlatRelated respects first same (lawful.sized s hs ▸ small)
    rw [← outcome, ← outcome'] at answers
    rw [← shown, ← shown'] at values
    obtain ⟨later, last⟩ := ih kept kept' values
    exact ⟨.cons answers later, last⟩

end Lawful

end Operation

end SignalVector
