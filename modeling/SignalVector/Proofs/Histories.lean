import Mathlib.Logic.Function.Basic
import SignalVector.Proofs.Reopening

/-! Programs that make vectors, limit them, clone them and write through any view, whatever they do
and wherever a step fails. Limits are only ever given with the size of their vector checked, and no
write reaches a size or a limit, so both stay in step over every program. -/
namespace SignalVector

open Update

variable {T : Type}

/- Whether there is room for a matrix may differ from one creation to the next. -/
inductive Creation (T : Type) where
  | zeros (size : Nat)
  | ofArray (values : Array T)
  | columnZeros (room : Matrix.Room) (size : Nat)
  | columnOfArray (room : Matrix.Room) (values : Array T)
  | columnOfMatrix (m : Matrix T)

/- What is done with an opened view. Through a slice all its entries can be written, in any way that
does not change its length. -/
inductive Write (T : Type) where
  | calls (ops : List (Operation T))
  | element (index : Nat) (f : T → T)
  | entry (index : Nat) (value : T)
  | slice (f : ∀ n, Vector T n → Vector T n)

inductive Action (T : Type) where
  | create (name : String) (creation : Creation T)
  | limit (name : String) (lower upper : Array Float)
  | clone (source target : String)
  | erase (name : String)
  | setEntry (name : String) (index : Nat) (value : T)
  | reverse (name : String)
  | write (view : View) (w : Write T)

def Action.target? : Action T → Option String
  | create name _ => some name
  | limit name _ _ => some name
  | clone _ target => some target
  | erase name => some name
  | _ => none

section Programs

variable [Zero T]

def Creation.make [Width T] : Creation T → Except Failure (Base T)
  | zeros size => do return .contiguous (← Contiguous.zeros size)
  | ofArray values => .ok (.contiguous (.ofArray values))
  | columnZeros room size => do return .column (← Column.zeros room size)
  | columnOfArray room values => do
    let entries : Vector T (values.size * 1) := ⟨values, (Nat.mul_one _).symm⟩
    return .column (← Column.ofMatrix (← Matrix.ofEntries room entries))
  | columnOfMatrix m => do return .column (← Column.ofMatrix m)

variable [One T] [Add T] [Mul T] [Neg T] [Magnitude T]

/- A step that fails leaves what it had written, and the program goes on. -/
def Write.perform (v : Layout (Registry T) T) : Write T → Registry T → Registry T
  | calls ops, r => (Operation.runAll v ops r).2
  | element index f, r => final (v.modify index f r)
  | entry index value, r => final (v.setElement index value r)
  | slice f, r =>
    match v.slots r with
    | some slots => slots.put (f slots.length slots.values)
    | none => r

def Registry.onContiguous (r : Registry T) (name : String) (step : Contiguous T → Registry T) :
    Registry T :=
  match r.find? name with
  | some (.contiguous c) => step c
  | _ => r

/- Giving limits takes the vector, and a vector that refuses them is not given back. -/
def Action.perform [Width T] : Action T → Registry T → Registry T
  | create name creation, r =>
    match creation.make with
    | .ok b => r.insert name b
    | .error _ => r
  | limit name lower upper, r => r.onContiguous name fun c =>
    match c.withBounds lower upper with
    | .ok limited => r.store name (.contiguous limited)
    | .error _ => r.erase name
  | clone source target, r => r.onContiguous source fun c => r.insert target (.contiguous c)
  | erase name, r => r.erase name
  | setEntry name index value, r => r.onContiguous name fun c =>
    r.store name (.contiguous (final (c.setEntry index value)))
  | reverse name, r => r.onContiguous name fun c => r.store name (.contiguous c.reverse)
  | write view w, r =>
    match view.openIn r with
    | .ok v => w.perform v r
    | .error _ => r

def Registry.run [Width T] (r : Registry T) (program : List (Action T)) : Registry T :=
  program.foldl (fun r a => a.perform r) r

end Programs

def Bounds.Fits (b : Bounds) (size : Nat) : Prop :=
  (b.lower.size = 0 ∧ b.upper.size = 0) ∨ (b.lower.size = size ∧ b.upper.size = size)

namespace Bounds

variable {b : Bounds} {size i : Nat}

theorem unboundedFits (size : Nat) : unbounded.Fits size := .inl ⟨rfl, rfl⟩

theorem unboundedAdmits (unbounded : b.isUnbounded = true) (i : Nat) (x : Float) :
    b.admits i x = true := by
  rw [admits, unbounded, Bool.true_or]

theorem Fits.bounded (fits : b.Fits size) (bounded : b.isUnbounded = false) :
    b.lower.size = size ∧ b.upper.size = size := by
  rcases fits with ⟨none, -⟩ | both
  · rw [isUnbounded, Array.isEmpty_iff_size_eq_zero.mpr none] at bounded
    contradiction
  · exact both

theorem Fits.admitsInside (fits : b.Fits size) (bounded : b.isUnbounded = false) (inside : i < size) :
    ∃ low high, b.lower[i]? = some low ∧ b.upper[i]? = some high ∧
      ∀ x, b.admits i x = true ↔ low ≤ x ∧ x ≤ high := by
  obtain ⟨below, above⟩ := fits.bounded bounded
  have low := Array.getElem?_eq_getElem (below.symm ▸ inside : i < b.lower.size)
  have high := Array.getElem?_eq_getElem (above.symm ▸ inside : i < b.upper.size)
  refine ⟨_, _, low, high, fun x => ?_⟩
  simp only [admits, bounded, low, high, Bool.false_or, Bool.and_eq_true, decide_eq_true_eq]

theorem Fits.admitsOutside (fits : b.Fits size) (bounded : b.isUnbounded = false)
    (outside : size ≤ i) (x : Float) : b.admits i x = false := by
  obtain ⟨below, -⟩ := fits.bounded bounded
  have low : b.lower[i]? = none := Array.getElem?_eq_none (below.symm ▸ outside)
  simp only [admits, bounded, low, Bool.false_or]

end Bounds

namespace Contiguous

variable {c : Contiguous T} {lower upper : Array Float}

theorem limitsApart (apart : lower.size ≠ upper.size) :
    c.withBounds lower upper = .error (.refused (.sizeMismatch lower.size upper.size)) := by
  simp only [withBounds, Bounds.make, checkSizeOther apart, bind, Except.bind]

theorem limitsOther (together : lower.size = upper.size) (other : c.values.size ≠ lower.size) :
    c.withBounds lower upper = .error (.refused (.sizeMismatch c.values.size lower.size)) := by
  simp only [withBounds, Bounds.make, Bounds.length, checkSizeSame together, checkSizeOther other, bind,
    Except.bind, pure, Except.pure]

theorem limitsGiven (together : lower.size = upper.size) (same : c.values.size = lower.size) :
    c.withBounds lower upper = .ok { c with bounds := ⟨lower, upper⟩ } := by
  simp only [withBounds, Bounds.make, Bounds.length, checkSizeSame together, checkSizeSame same, bind,
    Except.bind, pure, Except.pure]

structure TakesLimits (c : Contiguous T) (lower upper : Array Float) : Prop where
  given : ∀ limited, c.withBounds lower upper = .ok limited ↔ lower.size = c.values.size ∧
    upper.size = c.values.size ∧ limited = { c with bounds := ⟨lower, upper⟩ }
  apart : lower.size ≠ upper.size →
    c.withBounds lower upper = .error (.refused (.sizeMismatch lower.size upper.size))
  other : lower.size = upper.size → lower.size ≠ c.values.size →
    c.withBounds lower upper = .error (.refused (.sizeMismatch c.values.size lower.size))

theorem takesLimits (c : Contiguous T) (lower upper : Array Float) : c.TakesLimits lower upper where
  given limited := by
    by_cases together : lower.size = upper.size
    · by_cases same : c.values.size = lower.size
      · rw [limitsGiven together same, Except.ok.injEq, ← together]
        simp only [same, true_and, eq_comm]
      · rw [limitsOther together same]
        simp [Ne.symm same]
    · rw [limitsApart together]
      simp only [reduceCtorEq, false_iff]
      exact fun ⟨here, there, _⟩ => together (here.trans there.symm)
  apart := limitsApart
  other together different := limitsOther together (Ne.symm different)

end Contiguous

namespace Registry

theorem findInsert (r : Registry T) (name : String) (b : Base T) :
    (r.insert name b).find? = Function.update r.find? name (some b) := by
  funext other
  cases there : r.find? name with
  | some old =>
    have stored : r.insert name b = r.store name b := if_pos (by rw [contains, there]; rfl)
    rw [stored]
    by_cases same : other = name
    · rw [same, findStore there, Function.update_self]
    · rw [Function.update_of_ne same]
      exact lookupReplaceOther same b r.entries
  | none =>
    have appended : r.insert name b = ⟨r.entries ++ [(name, b)]⟩ :=
      if_neg (by rw [contains, there]; exact Bool.false_ne_true)
    rw [appended, find?, List.lookup_append]
    by_cases same : other = name
    · have missing : r.entries.lookup name = none := there
      simp [same, missing]
    · rw [Function.update_of_ne same, List.lookup_cons, beq_false_of_ne same]
      exact Option.or_none

theorem lookupCons (key : String) (b : Base T) (entries : List (String × Base T)) :
    (((key, b) :: entries).lookup ·) = Function.update (entries.lookup ·) key (some b) := by
  funext other
  by_cases same : other = key
  · rw [same, List.lookup_cons_self, Function.update_self]
  · rw [List.lookup_cons, beq_false_of_ne same, Function.update_of_ne same]

theorem lookupErase (name : String) (entries : List (String × Base T)) :
    ((entries.filter fun (key, _) => key ≠ name).lookup ·) =
      Function.update (entries.lookup ·) name none := by
  induction entries with
  | nil =>
    funext other
    simp [Function.update_apply]
  | cons entry entries ih =>
    obtain ⟨key, b⟩ := entry
    by_cases erased : key = name
    · rw [List.filter_cons_of_neg (by simp [erased]), ih, lookupCons, erased, Function.update_idem]
    · rw [List.filter_cons_of_pos (by simp [erased]), lookupCons, ih, lookupCons,
        Function.update_comm erased]

theorem findErase (r : Registry T) (name : String) :
    (r.erase name).find? = Function.update r.find? name none := lookupErase name r.entries

theorem storeFound {r : Registry T} {name : String} {old : Base T} (found : r.find? name = some old)
    (b : Base T) : (r.store name b).find? = Function.update r.find? name (some b) := by
  have inserted := findInsert r name b
  rwa [insert, if_pos (by rw [contains, found]; rfl)] at inserted

variable {r : Registry T} {name : String} {step : Contiguous T → Registry T}

theorem onContiguousHeld {c : Contiguous T} (held : r.find? name = some (.contiguous c)) :
    r.onContiguous name step = step c := by
  simp only [onContiguous, held]

theorem onContiguousCases (known : Registry T → Prop) (before : known r)
    (stepped : ∀ c, r.find? name = some (.contiguous c) → known (step c)) :
    known (r.onContiguous name step) := by
  unfold onContiguous
  split
  next c held => exact stepped c held
  next => exact before

def Fits (r : Registry T) : Prop :=
  ∀ name sh, r.shapes name = some sh → sh.bounds.Fits sh.size

theorem emptyFits : (empty : Registry T).Fits := fun _ _ found => by contradiction

theorem Fits.sameShapes {r' : Registry T} (fits : r.Fits) (same : r'.shapes = r.shapes) :
    r'.Fits := by
  rw [Fits, same]
  exact fits

structure Replaced (r : Registry T) (name : String) (b : Option (Base T)) (r' : Registry T) :
    Prop where
  find : r'.find? = Function.update r.find? name b
  fits : ∀ x, b = some x → r.Fits → x.shape.bounds.Fits x.shape.size

theorem Replaced.shapes {r' : Registry T} {b : Option (Base T)} (replaced : r.Replaced name b r') :
    r'.shapes = Function.update r.shapes name (b.map Base.shape) := by
  funext other
  simp only [Registry.shapes, replaced.find, Function.update_apply]
  split
  · rfl
  · rfl

theorem Fits.replaced {r' : Registry T} {b : Option (Base T)} (fits : r.Fits)
    (replaced : r.Replaced name b r') : r'.Fits := by
  intro other sh found
  rw [replaced.shapes] at found
  by_cases same : other = name
  · rw [same, Function.update_self] at found
    obtain ⟨x, there, rfl⟩ := Option.map_eq_some_iff.mp found
    exact replaced.fits x there fits
  · rw [Function.update_of_ne same] at found
    exact fits other sh found

end Registry

theorem Creation.madeUnbounded [Zero T] [Width T] {creation : Creation T} {b : Base T}
    (made : creation.make = .ok b) : b.shape.bounds = .unbounded := by
  cases creation with
  | zeros size =>
    obtain ⟨c, zeros, whole⟩ := bindSucceeds made
    obtain ⟨values, -, own⟩ := bindSucceeds zeros
    cases whole
    cases own
    rfl
  | ofArray values =>
    cases made
    rfl
  | columnZeros room size =>
    obtain ⟨c, -, whole⟩ := bindSucceeds made
    cases whole
    rfl
  | columnOfArray room values =>
    obtain ⟨m, -, rest⟩ := bindSucceeds made
    obtain ⟨c, -, whole⟩ := bindSucceeds rest
    cases whole
    rfl
  | columnOfMatrix m =>
    obtain ⟨c, -, whole⟩ := bindSucceeds made
    cases whole
    rfl

theorem finalSetElement {σ : Type} (v : Layout σ T) (index : Nat) (value : T) (s : σ) :
    final (v.setElement index value s) = final (v.set index value s) := by
  unfold Layout.setElement
  split
  next cause s' failed => rw [failed]; rfl
  next => rfl

section Steps

variable [Zero T] [One T] [Add T] [Mul T] [Neg T] [Magnitude T] {r : Registry T} {name : String}

theorem Write.keepsShapes {view : View} {v : Layout (Registry T) T} (opened : View.Opened r view v)
    (w : Write T) : (w.perform v r).shapes = r.shapes := by
  have leaves := View.layoutKeeps opened r.shapes
  cases w with
  | calls ops => exact (Operation.runAllLeaves leaves ops rfl).1
  | element index f => exact (leaves.modify index f r rfl).1
  | entry index value =>
    rw [perform, finalSetElement]
    exact (leaves.set index value r rfl).1
  | slice f =>
    simp only [perform]
    split
    next slots found => exact (leaves.slots r rfl slots found _).1
    next => rfl

variable [Width T]

namespace Action

variable {a : Action T} {c : Contiguous T}

theorem performKeeps (none : a.target? = none) (r : Registry T) :
    (a.perform r).shapes = r.shapes := by
  cases a with
  | setEntry name index value =>
    refine Registry.onContiguousCases (·.shapes = r.shapes) rfl fun c held => ?_
    refine Registry.shapesStore held ?_
    unfold Contiguous.setEntry
    split
    · simp [Base.shape, Contiguous.shape, final]
    · rfl
  | reverse name =>
    refine Registry.onContiguousCases (·.shapes = r.shapes) rfl fun c held => ?_
    refine Registry.shapesStore held ?_
    simp [Base.shape, Contiguous.shape, Contiguous.reverse]
  | write view w =>
    simp only [perform]
    split
    next v opened => exact w.keepsShapes (View.openedSource opened)
    next => rfl
  | create | limit | clone | erase => contradiction

theorem performReplaces {target : String} (targeted : a.target? = some target) (r : Registry T) :
    a.perform r = r ∨ ∃ b, r.Replaced target b (a.perform r) := by
  cases a with
  | create name creation =>
    cases targeted
    simp only [perform]
    split
    next b made =>
      refine .inr ⟨some b, Registry.findInsert r _ b, ?_⟩
      rintro _ ⟨⟩ -
      rw [Creation.madeUnbounded made]
      exact Bounds.unboundedFits _
    next => exact .inl rfl
  | limit name lower upper =>
    cases targeted
    refine Registry.onContiguousCases (fun r' => r' = r ∨ ∃ b, r.Replaced target b r') (.inl rfl)
      fun c held => ?_
    split
    next limited taken =>
      obtain ⟨below, above, rfl⟩ := ((c.takesLimits lower upper).given limited).mp taken
      refine .inr ⟨some _, Registry.storeFound held _, ?_⟩
      rintro _ ⟨⟩ -
      exact .inr ⟨below, above⟩
    next => exact .inr ⟨none, Registry.findErase r _, nofun⟩
  | clone source name =>
    cases targeted
    refine Registry.onContiguousCases (fun r' => r' = r ∨ ∃ b, r.Replaced target b r') (.inl rfl)
      fun c held => .inr ⟨some (.contiguous c), Registry.findInsert r _ _, ?_⟩
    rintro _ ⟨⟩ fits
    exact fits source _ (congrArg (Option.map Base.shape) held)
  | erase name =>
    cases targeted
    exact .inr ⟨none, Registry.findErase r _, nofun⟩
  | setEntry | reverse | write => contradiction

theorem performOthers (other : a.target? ≠ some name) (r : Registry T) :
    (a.perform r).shapes name = r.shapes name := by
  cases targeted : a.target? with
  | none => exact congrFun (performKeeps targeted r) name
  | some target =>
    have different : name ≠ target := fun same => other (same ▸ targeted)
    rcases performReplaces targeted r with same | ⟨b, replaced⟩
    · rw [same]
    · rw [replaced.shapes, Function.update_of_ne different]

theorem performFits (fits : r.Fits) (a : Action T) : (a.perform r).Fits := by
  cases targeted : a.target? with
  | none => exact fits.sameShapes (performKeeps targeted r)
  | some target =>
    rcases performReplaces targeted r with same | ⟨b, replaced⟩
    · exact same.symm ▸ fits
    · exact fits.replaced replaced

end Action

namespace Registry

theorem runFits (fits : r.Fits) (program : List (Action T)) : (r.run program).Fits := by
  induction program generalizing r with
  | nil => exact fits
  | cons a program ih => exact ih (a.performFits fits)

theorem runOthers (r : Registry T) {program : List (Action T)}
    (other : ∀ a ∈ program, a.target? ≠ some name) : (r.run program).shapes name = r.shapes name := by
  induction program generalizing r with
  | nil => rfl
  | cons a program ih =>
    obtain ⟨here, later⟩ := List.forall_mem_cons.mp other
    exact (ih (a.perform r) later).trans (Action.performOthers here r)

end Registry

structure Contiguous.Bounded (c : Contiguous T) : Prop where
  fits : c.bounds.Fits c.values.size
  takes : ∀ lower upper, c.TakesLimits lower upper
  unbounded : c.bounds.isUnbounded = true → ∀ i x, c.bounds.admits i x = true
  inside : c.bounds.isUnbounded = false → ∀ i < c.values.size, ∃ low high,
    c.bounds.lower[i]? = some low ∧ c.bounds.upper[i]? = some high ∧
      ∀ x, c.bounds.admits i x = true ↔ low ≤ x ∧ x ≤ high
  outside : c.bounds.isUnbounded = false → ∀ i, c.values.size ≤ i → ∀ x, c.bounds.admits i x = false

/- Where limits come from: a made vector has none, a clone has those of its source, and otherwise
they are given. Steps that are about other vectors, and all writes, leave them. -/
structure Registry.KeepsLimits (r : Registry T) : Prop where
  others : ∀ name c, r.find? name = some (.contiguous c) → ∀ program : List (Action T),
    (∀ a ∈ program, a.target? ≠ some name) → ∃ c', (r.run program).find? name = some (.contiguous c') ∧
      c'.values.size = c.values.size ∧ c'.bounds = c.bounds
  created : ∀ name (creation : Creation T) b, creation.make = .ok b →
    (r.run [.create name creation]).find? name = some b ∧ b.shape.bounds = .unbounded
  cloned : ∀ source c, r.find? source = some (.contiguous c) → ∀ target,
    (r.run [.clone source target]).find? target = some (.contiguous c)
  limited : ∀ name c, r.find? name = some (.contiguous c) → ∀ lower upper,
    (r.run [.limit name lower upper]).find? name = (c.withBounds lower upper).toOption.map .contiguous

theorem Registry.keepsLimits (r : Registry T) : r.KeepsLimits where
  others name c held program other := by
    have same := (r.runOthers other).trans (congrArg (Option.map Base.shape) held)
    obtain ⟨b, found, shape⟩ := Option.map_eq_some_iff.mp same
    cases b with
    | contiguous c' => exact ⟨c', found, congrArg Shape.size shape, congrArg Shape.bounds shape⟩
    | column c' => exact nomatch (congrArg Shape.sliced shape : false = true)
  created name creation b made := by
    refine ⟨?_, Creation.madeUnbounded made⟩
    change ((Action.create name creation).perform r).find? name = _
    simp only [Action.perform, made, findInsert, Function.update_self]
  cloned source c held target := by
    change ((Action.clone source target).perform r).find? target = _
    simp only [Action.perform, onContiguousHeld held, findInsert, Function.update_self]
  limited name c held lower upper := by
    change ((Action.limit name lower upper).perform r).find? name = _
    rw [Action.perform, onContiguousHeld held]
    cases c.withBounds lower upper with
    | ok limited => exact congrFun (storeFound held _) name |>.trans (Function.update_self ..)
    | error e => exact congrFun (findErase r name) name |>.trans (Function.update_self ..)

theorem limitsKept (program : List (Action T)) :
    (∀ name c, (Registry.empty.run program).find? name = some (.contiguous c) →
      (Registry.layout name).bounds (Registry.empty.run program) = c.bounds ∧ c.Bounded) ∧
    (Registry.empty.run program).KeepsLimits := by
  refine ⟨fun name c held => ⟨?_, ?_⟩, Registry.keepsLimits _⟩
  · change Base.layout.bounds (Registry.base _ name) = c.bounds
    rw [Registry.baseFound held]
    rfl
  · have fits : c.bounds.Fits c.values.size :=
      Registry.runFits Registry.emptyFits program name c.shape (congrArg (Option.map Base.shape) held)
    exact {
      fits := fits
      takes := c.takesLimits
      unbounded := Bounds.unboundedAdmits
      inside := fun bounded i => fits.admitsInside bounded
      outside := fun bounded i => fits.admitsOutside bounded }

end Steps

def cloning : List (Action Float) :=
  [.create "v" (.ofArray #[1, 2]), .limit "v" #[0, 0] #[3, 3],
    .write (.range (.base "v") 1 1) (.calls [.set 0 7]), .clone "v" "w"]

theorem limitsKeptClone :
    ∃ c, (Registry.empty.run cloning).find? "w" = some (.contiguous c) ∧ c.values = #[1, 7] ∧
      c.bounds.admits 1 7 = false ∧
      c.withBounds #[] #[] = .error (.refused (.sizeMismatch 2 0)) ∧
      ((Registry.empty.run cloning).run [.limit "w" #[] #[]]).find? "w" = none := by
  let c : Contiguous Float := ⟨#[1, 7], ⟨#[0, 0], #[3, 3]⟩⟩
  have held : (Registry.empty.run cloning).find? "w" = some (.contiguous c) := rfl
  obtain ⟨stored, keeps⟩ := limitsKept cloning
  obtain ⟨-, bounded⟩ := stored "w" c held
  have refused := (bounded.takes #[] #[]).other rfl (by decide)
  have taken := keeps.limited "w" c held #[] #[]
  rw [refused] at taken
  refine ⟨c, held, rfl, ?_, refused, taken⟩
  obtain ⟨low, high, below, above, within⟩ := bounded.inside rfl 1 (by decide)
  cases below
  cases above
  exact Bool.eq_false_iff.mpr fun admits => absurd ((within 7).mp admits).2 (by decide)

end SignalVector
