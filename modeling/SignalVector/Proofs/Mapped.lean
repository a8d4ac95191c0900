import SignalVector.Proofs.Programs
import SignalVector.Proofs.ScalarChange

/-! Runs over scalars that are taken from others by a map. Where the map respects every scalar
operation, a program gives the images of what it gave, and so does every run of calls through a
view. -/
namespace SignalVector

open Operation (runAll)

variable {A B T T' ι κ κ' ε : Type}

structure RespectsScalars [Zero A] [One A] [Neg A] [Add A] [Sub A] [Mul A] [Magnitude A] [Zero B]
    [One B] [Neg B] [Add B] [Sub B] [Mul B] [Magnitude B] (f : A → B) : Prop
    extends RespectsRing f where
  magnitude : ∀ a, f (magnitude a) = magnitude (f a)
  larger : ∀ a b, f (larger a b) = larger (f a) (f b)

theorem RespectsScalars.graph [Zero A] [One A] [Neg A] [Add A] [Sub A] [Mul A] [Magnitude A]
    [Zero B] [One B] [Neg B] [Add B] [Sub B] [Mul B] [Magnitude B] {f : A → B}
    (h : RespectsScalars f) : Respects fun x x' => f x = x' where
  zero := h.zero
  one := h.one
  add left right := (h.add _ _).trans (congrArg₂ (· + ·) left right)
  mul left right := (h.mul _ _).trans (congrArg₂ (· * ·) left right)
  neg same := (h.neg _).trans (congrArg (-·) same)
  magnitude same := (h.magnitude _).trans (congrArg Magnitude.magnitude same)
  larger left right := (h.larger _ _).trans (congrArg₂ Magnitude.larger left right)

section Except

variable {f : κ → κ'} (x y : Except ε κ)

theorem mapOnce {c : κ → κ} {c' : κ' → κ'} (same : ∀ u, f (c u) = c' (f u)) :
    (do return c' (← f <$> x)) = f <$> (do return c (← x)) := by
  cases x with
  | error e => rfl
  | ok u => exact congrArg Except.ok (same u).symm

theorem mapTwice {c : κ → κ → κ} {c' : κ' → κ' → κ'} (same : ∀ u w, f (c u w) = c' (f u) (f w)) :
    (do return c' (← f <$> x) (← f <$> y)) = f <$> (do return c (← x) (← y)) := by
  cases x with
  | error e => rfl
  | ok u =>
    cases y with
    | error e => rfl
    | ok w => exact congrArg Except.ok (same u w).symm

end Except

namespace Term

def map (f : ι → κ) : Term ι → Term κ
  | zero => zero
  | one => one
  | leaf i => leaf (f i)
  | neg a => neg (a.map f)
  | magnitude a => magnitude (a.map f)
  | add a b => add (a.map f) (b.map f)
  | sub a b => sub (a.map f) (b.map f)
  | mul a b => mul (a.map f) (b.map f)
  | larger a b => larger (a.map f) (b.map f)

theorem traverseMap (f : κ → κ') (g : ι → Except ε κ) (t : Term ι) :
    t.traverse (fun i => f <$> g i) = map f <$> t.traverse g := by
  induction t with
  | zero => rfl
  | one => rfl
  | leaf i =>
    simp only [traverse]
    cases g i with
    | error e => rfl
    | ok x => rfl
  | neg a inside =>
    simp only [traverse, inside]
    exact mapOnce (c := neg) (a.traverse g) fun _ => rfl
  | magnitude a inside =>
    simp only [traverse, inside]
    exact mapOnce (c := magnitude) (a.traverse g) fun _ => rfl
  | add a b left right => simpa only [traverse, left, right] using mapTwice _ _ fun _ _ => rfl
  | sub a b left right => simpa only [traverse, left, right] using mapTwice _ _ fun _ _ => rfl
  | mul a b left right => simpa only [traverse, left, right] using mapTwice _ _ fun _ _ => rfl
  | larger a b left right => simpa only [traverse, left, right] using mapTwice _ _ fun _ _ => rfl

variable [Zero A] [One A] [Neg A] [Add A] [Sub A] [Mul A] [Magnitude A] [Zero B] [One B] [Neg B]
  [Add B] [Sub B] [Mul B] [Magnitude B] {f : A → B} (respects : RespectsScalars f)

include respects

theorem evalImage (t : Term A) : (t.map f).eval id = f (t.eval id) := by
  induction t with
  | zero => exact respects.zero.symm
  | one => exact respects.one.symm
  | leaf x => rfl
  | neg a inside => simp only [map, eval, respects.neg, inside]
  | magnitude a inside => simp only [map, eval, respects.magnitude, inside]
  | add a b left right => simp only [map, eval, respects.add, left, right]
  | sub a b left right => simp only [map, eval, respects.sub, left, right]
  | mul a b left right => simp only [map, eval, respects.mul, left, right]
  | larger a b left right => simp only [map, eval, respects.larger, left, right]

end Term

namespace Program

theorem readMap (f : A → B) (input : ι → Except Failure A) (registers : Array A) (i : Source ι) :
    read (fun i => f <$> input i) (registers.map f) i = f <$> read input registers i := by
  cases i with
  | input i => rfl
  | register k =>
    simp only [read, Array.getElem?_map, Array.size_map]
    cases registers[k]? with
    | none => rfl
    | some x => rfl

variable [Zero A] [One A] [Neg A] [Add A] [Sub A] [Mul A] [Magnitude A] [Zero B] [One B] [Neg B]
  [Add B] [Sub B] [Mul B] [Magnitude B] {f : A → B}

theorem runImage (respects : RespectsScalars f) (input : ι → Except Failure A) (p : Program ι)
    (registers : Array A) :
    run (fun i => f <$> input i) p (registers.map f) = Array.map f <$> run input p registers := by
  induction p generalizing registers with
  | nil => rfl
  | cons step steps ih =>
    have reads : read (fun i => f <$> input i) (registers.map f) =
        fun i => f <$> read input registers i := funext (readMap f input registers)
    simp only [run, reads, Term.traverseMap]
    cases step.traverse (read input registers) with
    | error e => rfl
    | ok u =>
      have next := ih (registers.push (u.eval id))
      rw [Array.map_push, ← Term.evalImage respects] at next
      exact next

end Program

section Images

variable (f : T → T')

def Cells.map (c : Cells T) : Cells T' :=
  ⟨c.size, fun i => f <$> c.get i, c.contiguous.map (Array.map f)⟩

def Link.map : Link T → Link T'
  | .add x => .add (x.map f)
  | .subtract x => .subtract (x.map f)
  | .addScaled scale x => .addScaled (f scale) (x.map f)
  | .addScaledAll terms => .addScaledAll (terms.map fun t => (f t.1, t.2.map f))

def Frame.map (frame : Frame T) : Frame T' := ⟨frame.values.map f⟩

def Operation.map : Operation T → Operation T'
  | .get index => .get index
  | .set index value => .set index (f value)
  | .setFrom source => .setFrom (source.map f)
  | .assign values => .assign (values.map f)
  | .clear => .clear
  | .toArray => .toArray
  | .copyInto target => .copyInto (target.map (Array.map f))
  | .scaleAndAddInto scale target => .scaleAndAddInto (f scale) (target.map (Array.map f))
  | .chain links => .chain (links.map (Link.map f))
  | .normInf => .normInf
  | .walk count => .walk count
  | .refresh frame => .refresh (frame.map f)
  | .restore frame => .restore (frame.map f)

def Answer.map : Answer T → Answer T'
  | .done => .done
  | .scalar x => .scalar (f x)
  | .values xs => .values (xs.map f)
  | .walk w => .walk ⟨w.before, w.items.map f, w.after, w.next.map f⟩

def Outcome.map (o : Outcome T) : Outcome T' :=
  ⟨Answer.map f <$> o.result, o.buffer.map (Array.map f)⟩

end Images

section Graph

variable {f : T → T'}

theorem pointwiseImage {xs : Array T} {xs' : Array T'} :
    Pointwise (fun x x' => f x = x') xs xs' ↔ xs.map f = xs' := by
  constructor
  · intro same
    apply Array.ext
    · simpa using same.size
    · intro i inside inside'
      rw [Array.getElem_map]
      exact same.each i (by simpa using inside) inside'
  · rintro rfl
    exact ⟨by simp, fun i _ _ => by simp⟩

theorem optionImage {α α' : Type} {g : α → α'} {rel : α → α' → Prop}
    (images : ∀ a a', rel a a' ↔ g a = a') {o : Option α} {o' : Option α'} :
    Option.Rel rel o o' ↔ o.map g = o' := by
  constructor
  · rintro (related | _)
    · exact congrArg some ((images _ _).mp related)
    · rfl
  · rintro rfl
    cases o with
    | none => exact .none
    | some a => exact .some ((images _ _).mpr rfl)

theorem listImage {α α' : Type} {g : α → α'} {rel : α → α' → Prop}
    (images : ∀ a a', rel a a' → g a = a') {as : List α} {as' : List α'}
    (each : List.Forall₂ rel as as') : as.map g = as' := by
  induction each with
  | nil => rfl
  | cons first _ ih => exact congrArg₂ List.cons (images _ _ first) ih

theorem Cells.readSliceMap (f : T → T') (xs : Array T) (i : Nat) :
    readSlice (xs.map f) i = f <$> readSlice xs i := by
  simp only [readSlice, Array.getElem?_map, Array.size_map]
  cases xs[i]? with
  | none => rfl
  | some x => rfl

theorem Cells.Holds.map {c : Cells T} {xs : Array T} (h : c.Holds xs) (f : T → T') :
    (c.map f).Holds (xs.map f) where
  size := by simpa [Cells.map] using h.size
  get i := by rw [readSliceMap, ← h.get]; rfl
  contiguous values found := by
    obtain ⟨own, slice, rfl⟩ := Option.map_eq_some_iff.mp found
    rw [h.contiguous own slice]

theorem Cells.Coherent.image {c : Cells T} (coherent : c.Coherent) (f : T → T') :
    c.Matches (fun x x' => f x = x') (c.map f) := by
  obtain ⟨xs, held⟩ := coherent
  exact ⟨xs, xs.map f, held, held.map f, pointwiseImage.mpr rfl⟩

theorem termsImage {terms : List (T × Cells T)} (coherent : ∀ t ∈ terms, t.2.Coherent) :
    Operands.Matches (fun x x' => f x = x') terms (terms.map fun t => (f t.1, t.2.map f)) :=
  List.forall₂_map_right_iff.mpr
    (List.forall₂_same.mpr fun t member => ⟨rfl, (coherent t member).image f⟩)

theorem answerImage {a : Answer T} {a' : Answer T'}
    (related : a.Related (fun x x' => f x = x') a') : a.map f = a' := by
  cases related with
  | done => rfl
  | scalar same => exact congrArg Answer.scalar same
  | values each => exact congrArg Answer.values (pointwiseImage.mp each)
  | @walk w w' walks =>
    obtain ⟨before, items, after, next⟩ := w
    obtain ⟨before', items', after', next'⟩ := w'
    obtain ⟨rfl, shown, rfl, ahead⟩ := walks
    have items : items.map f = items' := listImage (fun _ _ => id) shown
    have next : next.map f = next' := (optionImage fun _ _ => Iff.rfl).mp ahead
    simp only [Answer.map, items, next]

theorem outcomeImage {o : Outcome T} {o' : Outcome T'}
    (related : o.Related (fun x x' => f x = x') o') : o.map f = o' := by
  obtain ⟨result, buffer⟩ := o
  obtain ⟨result', buffer'⟩ := o'
  obtain ⟨results, buffers⟩ := related
  have buffer : buffer.map (Array.map f) = buffer' :=
    (optionImage fun _ _ => pointwiseImage).mp buffers
  have result : Answer.map f <$> result = result' := by
    cases results with
    | ok answers => exact congrArg Except.ok (answerImage answers)
    | error e => rfl
  simp only [Outcome.map, buffer, result]

theorem registryImage {r : Registry T} {r' : Registry T'}
    (related : Registry.Related (fun x x' => f x = x') r r') : r'.find? = (r.map f).find? := by
  refine Registry.decided (related.shapes.trans (Registry.mapShapes f r).symm) fun p => ?_
  rw [Registry.mapCell]
  exact ((optionImage fun _ _ => Iff.rfl).mp (related.cells p)).symm

variable [One T] [Neg T]

theorem linkImage {link : Link T} (coherent : ∀ t ∈ link.terms, t.2.Coherent) :
    link.Related (fun x x' => f x = x') (link.map f) := by
  cases link with
  | add x => exact .add ((coherent _ (List.mem_singleton_self _)).image f)
  | subtract x => exact .subtract ((coherent _ (List.mem_singleton_self _)).image f)
  | addScaled scale x => exact .addScaled rfl ((coherent _ (List.mem_singleton_self _)).image f)
  | addScaledAll terms => exact .addScaledAll (termsImage coherent)

theorem operationImage {op : Operation T} (coherent : ∀ c ∈ op.operands, c.Coherent) :
    op.Related (fun x x' => f x = x') (op.map f) := by
  have targets : ∀ target : Option (Array T),
      Option.Rel (Pointwise fun x x' => f x = x') target (target.map (Array.map f)) :=
    fun target => (optionImage fun _ _ => pointwiseImage).mpr rfl
  cases op with
  | get index => exact .get index
  | set index value => exact .set index rfl
  | setFrom source => exact .setFrom ((coherent _ (List.mem_singleton_self source)).image f)
  | assign values => exact .assign (pointwiseImage.mpr rfl)
  | clear => exact .clear
  | toArray => exact .toArray
  | copyInto target => exact .copyInto (targets target)
  | scaleAndAddInto scale target => exact .scaleAndAddInto rfl (targets target)
  | chain links =>
    refine .chain (List.forall₂_map_right_iff.mpr (List.forall₂_same.mpr fun link member => ?_))
    refine linkImage (Link.eachVector.mp fun x there => coherent x ?_)
    exact List.mem_flatMap.mpr ⟨link, member, there⟩
  | normInf => exact .normInf
  | walk count => exact .walk count
  | refresh frame => exact .refresh (pointwiseImage.mpr rfl)
  | restore frame => exact .restore (pointwiseImage.mpr rfl)

end Graph

namespace View

variable [Zero T] [One T] [Add T] [Mul T] [Neg T] [Magnitude T] [Zero T'] [One T'] [Add T'] [Mul T']
  [Neg T'] [Magnitude T']

structure RunsImage (f : T → T') (r : Registry T) (v : Layout (Registry T) T)
    (v' : Layout (Registry T') T') (ops : List (Operation T)) : Prop where
  outcomes : (runAll v' (ops.map (Operation.map f)) (r.map f)).1 =
    (runAll v ops r).1.map (Outcome.map f)
  bases : (runAll v' (ops.map (Operation.map f)) (r.map f)).2.find? =
    ((runAll v ops r).2.map f).find?
  get : ∀ i, (v'.cells (runAll v' (ops.map (Operation.map f)) (r.map f)).2).get i =
    f <$> (v.cells (runAll v ops r).2).get i

theorem runsImage {f : T → T'} (respects : Respects fun x x' => f x = x') {r : Registry T}
    {view : View} (grounded : view.Grounded r) :
    Matched (fun v v' => ∀ ops : List (Operation T),
      (∀ op ∈ ops, ∀ c ∈ op.operands, Shows c) → RunsImage f r v v' ops)
      (openIn r view) (openIn (r.map f) view) := by
  have related : Registry.Related (fun x x' => f x = x') r (r.map f) := by
    refine ⟨Registry.mapShapes f r, fun p => ?_⟩
    rw [Registry.mapCell]
    exact (optionImage fun _ _ => Iff.rfl).mpr rfl
  have opens := opensMatched related.shapes view
  generalize here : openIn r view = opening at opens ⊢
  generalize here' : openIn (r.map f) view = opening' at opens ⊢
  cases opens with
  | error e => exact .error e
  | @ok v v' _ =>
    refine .ok fun ops shows => ?_
    have opened := openedSource here
    have opened' := openedSource here'
    have calls : List.Forall₂ (Operation.Related fun x x' => f x = x') ops
        (ops.map (Operation.map f)) :=
      List.forall₂_map_right_iff.mpr (List.forall₂_same.mpr fun op member =>
        operationImage fun c there => coherent (shows op member c there))
    obtain ⟨outcomes, after⟩ := runsRelated respects related grounded opened opened' calls
    have kept := keepsShapes opened grounded ops rfl
    have kept' := keepsShapes opened' (grounded.sameShapes related.shapes)
      (ops.map (Operation.map f)) rfl
    refine ⟨?_, registryImage after, fun i => ?_⟩
    · exact (listImage (fun _ _ => outcomeImage) outcomes).symm
    · rw [(cellsHold opened' kept').1.get, ← pointwiseImage.mp (elementsRelated after view),
        Cells.readSliceMap, (cellsHold opened kept).1.get]

end View

end SignalVector
