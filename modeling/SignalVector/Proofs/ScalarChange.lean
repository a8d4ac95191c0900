import SignalVector.Proofs.Duals
import SignalVector.Proofs.Reopening
import SignalVector.Proofs.Simplification

/-! Algorithms on vectors do not look into their scalars. A view over two registries of related
elements opens in both or in neither, and every run of calls through it gives related outcomes and
leaves related registries. -/
namespace SignalVector

open Operation (runAll)

variable {T T' : Type} {rel : T → T' → Prop}

structure Registry.Related (rel : T → T' → Prop) (r : Registry T) (r' : Registry T') : Prop where
  shapes : r'.shapes = r.shapes
  cells : ∀ p, Option.Rel rel (cell p r) (cell p r')

namespace View

open Registry (HasShapes cell)

theorem elementsRelated {r : Registry T} {r' : Registry T'} (related : Registry.Related rel r r')
    (view : View) : Pointwise rel (view.elements r) (view.elements r') where
  size := by rw [← lengthPlaces, ← lengthPlaces, placesSame related.shapes]
  each i inside inside' := by
    have counted : i < (view.places r).length := by rwa [lengthPlaces]
    obtain ⟨p, placed⟩ : ∃ p, (view.places r)[i]? = some p := ⟨_, List.getElem?_eq_getElem counted⟩
    have placed' := placed
    rw [← placesSame related.shapes] at placed'
    have here := related.cells p
    rw [← elementAt rfl placed, ← elementAt rfl placed', Array.getElem?_eq_getElem inside,
      Array.getElem?_eq_getElem inside'] at here
    cases here
    assumption

section Runs

variable [Zero T] [One T] [Add T] [Mul T] [Neg T] [Magnitude T] [Zero T'] [One T'] [Add T'] [Mul T']
  [Neg T'] [Magnitude T'] (respects : Respects rel) {r : Registry T} {r' : Registry T'} {view : View}

include respects

theorem runsRelated (related : Registry.Related rel r r') (grounded : view.Grounded r)
    {v : Layout (Registry T) T} {v' : Layout (Registry T') T'} (opened : Opened r view v)
    (opened' : Opened r' view v') {ops : List (Operation T)} {ops' : List (Operation T')}
    (calls : List.Forall₂ (Operation.Related rel) ops ops') :
    List.Forall₂ (Outcome.Related rel) (runAll v ops r).1 (runAll v' ops' r').1 ∧
      Registry.Related rel (runAll v ops r).2 (runAll v' ops' r').2 := by
  have grounded' := grounded.sameShapes related.shapes
  obtain ⟨lawful, small⟩ := layoutLawful opened grounded
  obtain ⟨lawful', small'⟩ := layoutLawful opened' grounded'
  obtain ⟨outcomes, after⟩ := Operation.runAllRelated respects lawful lawful' small small' calls
    rfl rfl (elementsRelated related view)
  have kept := keepsShapes opened grounded ops rfl
  have kept' := keepsShapes opened' grounded' ops' rfl
  refine ⟨outcomes, (kept'.trans related.shapes).trans kept.symm, fun p => ?_⟩
  by_cases shown : p ∈ view.places r
  · obtain ⟨j, placed⟩ := List.mem_iff_getElem?.mp shown
    have placed' := placed
    rw [← placesSame related.shapes] at placed'
    rw [← elementAt kept placed, ← elementAt kept' placed']
    exact after.entry j
  · have shown' : p ∉ view.places r' := placesSame related.shapes view ▸ shown
    rw [(Operation.runAllLeaves (leavesOtherPlaces opened grounded shown) ops rfl).2,
      (Operation.runAllLeaves (leavesOtherPlaces opened' grounded' shown') ops' rfl).2]
    exact related.cells p

theorem changesScalars (related : Registry.Related rel r r') (grounded : view.Grounded r) :
    Matched (fun v v' => ∀ ops ops', List.Forall₂ (Operation.Related rel) ops ops' →
      let after := runAll v ops r
      let after' := runAll v' ops' r'
      List.Forall₂ (Outcome.Related rel) after.1 after'.1 ∧
        Registry.Related rel after.2 after'.2 ∧
        (v.cells after.2).Matches rel (v'.cells after'.2) ∧
        Matched (fun frame frame' => Pointwise rel frame.values frame'.values)
          (Frame.capture v after.2) (Frame.capture v' after'.2))
      (openIn r view) (openIn r' view) := by
  have grounded' := grounded.sameShapes related.shapes
  have opens := opensMatched related.shapes view
  generalize here : openIn r view = opening at opens ⊢
  generalize here' : openIn r' view = opening' at opens ⊢
  cases opens with
  | error e => exact .error e
  | @ok v v' _ =>
    refine .ok fun ops ops' calls => ?_
    have opened := openedSource here
    have opened' := openedSource here'
    obtain ⟨outcomes, after⟩ := runsRelated respects related grounded opened opened' calls
    have kept := keepsShapes opened grounded ops rfl
    have kept' := keepsShapes opened' grounded' ops' rfl
    have shown := elementsRelated after view
    refine ⟨outcomes, after,
      ⟨_, _, (cellsHold opened kept).1, (cellsHold opened' kept').1, shown⟩, ?_⟩
    have captured := (layoutLawful opened grounded).1.toArray _ kept
    have captured' := (layoutLawful opened' grounded').1.toArray _ kept'
    simp only [Frame.capture, captured, captured']
    exact .ok shown

end Runs

end View

section Instances

def Base.map (f : T → T') : Base T → Base T'
  | contiguous c => .contiguous ⟨c.values.map f, c.bounds⟩
  | column c => .column ⟨c.entries.map f⟩

def Registry.map (f : T → T') (r : Registry T) : Registry T' :=
  ⟨r.entries.map fun (key, b) => (key, b.map f)⟩

theorem Base.mapShape (f : T → T') (b : Base T) : (b.map f).shape = b.shape := by
  cases b with
  | contiguous c => simp [map, shape, Contiguous.shape]
  | column c => simp [map, shape, Column.shape]

theorem Base.mapValues (f : T → T') (b : Base T) : (b.map f).values = b.values.map f := by
  cases b with
  | contiguous c => rfl
  | column c => rfl

namespace Registry

theorem mapFind (f : T → T') (r : Registry T) (name : String) :
    (r.map f).find? name = (r.find? name).map (Base.map f) := by
  simp only [find?, map]
  induction r.entries with
  | nil => rfl
  | cons entry entries ih =>
    obtain ⟨key, b⟩ := entry
    simp only [List.map_cons, List.lookup_cons, ih]
    cases name == key with
    | true => rfl
    | false => rfl

theorem mapShapes (f : T → T') (r : Registry T) : (r.map f).shapes = r.shapes := by
  funext name
  simp only [shapes, mapFind, Option.map_map]
  exact congrArg (fun shape => Option.map shape _) (funext (Base.mapShape f))

theorem mapCell (f : T → T') (r : Registry T) (p : String × Nat) :
    cell p (r.map f) = (cell p r).map f := by
  have values : valuesOf p.1 (r.map f) = (valuesOf p.1 r).map f := by
    simp only [valuesOf, base, mapFind]
    cases r.find? p.1 with
    | none => simp [Base.empty, Base.values, Contiguous.ofArray]
    | some b => exact Base.mapValues f b
  simp only [cell, values, Array.getElem?_map]

theorem mapsRelated {S : Type} {f : S → T} {g : S → T'} (each : ∀ x, rel (f x) (g x))
    (r : Registry S) : Related rel (r.map f) (r.map g) where
  shapes := (mapShapes g r).trans (mapShapes f r).symm
  cells p := by
    rw [mapCell, mapCell]
    cases cell p r with
    | none => exact .none
    | some x => exact .some (each x)

end Registry

variable {R : Type} [CommRing R] [Magnitude R]

theorem Expression.evaluateRespects [BEq R] [LawfulBEq R] (idempotent : ∀ a : R, larger a a = a)
    (env : String → Option R) :
    Respects fun (e : Expression R) (x : R) => e.evaluate env = some x where
  zero := rfl
  one := rfl
  add := evaluateAdd
  mul := evaluateMul
  neg := evaluateNeg
  magnitude := evaluateAbs
  larger := evaluateMax idempotent

theorem Dual.valueRespects [LinearOrder R] [IsStrictOrderedRing R] {n : Nat}
    (absolute : ∀ a : R, magnitude a = |a|) (greater : ∀ a b : R, larger a b = max a b) :
    Respects fun (d : Dual R n) (x : R) => d.value = x where
  zero := rfl
  one := rfl
  add left right := congrArg₂ (· + ·) left right
  mul left right := congrArg₂ (· * ·) left right
  neg same := by rw [valueNeg, same, mul_neg_one]
  magnitude {a x} same := by
    subst same
    rw [absolute]
    change (if a.value < 0 then -a else a).value = _
    split
    · rename_i negative
      rw [valueNeg, mul_neg_one, abs_of_neg negative]
    · rename_i other
      rw [abs_of_nonneg (not_lt.mp other)]
  larger {a x b y} left right := by
    subst left right
    rw [greater]
    change (if a.value < b.value then b else a).value = _
    split
    · rename_i less
      rw [max_eq_right less.le]
    · rename_i other
      rw [max_eq_left (not_lt.mp other)]

end Instances

namespace View

def signals : Registry String := ⟨[("x", .contiguous (.ofArray #["p", "q", "r"]))]⟩

def lastTwo : View := .blocks [.range (.base "x") 1 2]

theorem groundedSignals : lastTwo.Grounded signals where
  bases name member := by
    have own : name = "x" := by simpa [lastTwo, names, namesAll] using member
    subst own
    exact ⟨.contiguous (.ofArray #["p", "q", "r"]), rfl, by decide⟩
  once := by decide

def lastOpened {T : Type} [Zero T] [Add T] [Mul T] : Layout (Registry T) T :=
  Blocks.layout ⟨[(Range.mk (Registry.layout "x") 1 2).layout], [0, 2]⟩

theorem opensLast {T : Type} [Zero T] [Add T] [Mul T] (f : String → T) :
    lastTwo.openIn (signals.map f) = .ok lastOpened := by
  have mapped : signals.map f = ⟨[("x", .contiguous (.ofArray #[f "p", f "q", f "r"]))]⟩ := by
    simp [signals, Registry.map, Base.map, Contiguous.ofArray]
  rw [mapped]
  rfl

theorem changesScalarsTail :
    letI : Magnitude Int := ⟨fun a => |a|, Max.max⟩
    let point : String → Int := fun name => if name == "q" then -3 else 2
    let standsFor : Expression Int → Int → Prop := fun e x => e.evaluate (some <| point ·) = some x
    let above : Dual Int 1 → Int → Prop := fun d x => d.value = x
    let symbols := signals.map (Expression.symbol (R := Int))
    let slopes := signals.map fun name => (⟨point name, #v[1]⟩ : Dual Int 1)
    let calls := fun {T : Type} (x : T) =>
      [Operation.set 0 x, .get 2, .assign #[x], .scaleAndAddInto x (some #[x, x]), .normInf]
    let run := (runAll lastOpened (calls (2 : Int)) (signals.map point)).1
    List.Forall₂ (Outcome.Related standsFor)
        (runAll lastOpened (calls (Expression.symbol "p")) symbols).1 run ∧
      List.Forall₂ (Outcome.Related above)
        (runAll lastOpened (calls (⟨2, #v[1]⟩ : Dual Int 1)) slopes).1 run := by
  let numbers : Magnitude Int := ⟨fun a => |a|, Max.max⟩
  intro point standsFor above symbols slopes calls run
  have related : ∀ {T T' : Type} {rel : T → T' → Prop} {x : T} {x' : T'}, rel x x' →
      List.Forall₂ (Operation.Related rel) (calls x) (calls x') := by
    intro T T' rel x x' same
    have one : Pointwise rel #[x] #[x'] := Pointwise.replicate 1 same
    have two : Pointwise rel #[x, x] #[x', x'] := Pointwise.replicate 2 same
    exact .cons (.set 0 same) <| .cons (.get 2) <| .cons (.assign one) <|
      .cons (.scaleAndAddInto same (.some two)) <| .cons .normInf .nil
  have grounded : ∀ {T : Type} (f : String → T), lastTwo.Grounded (signals.map f) :=
    fun f => groundedSignals.sameShapes (Registry.mapShapes f signals)
  constructor
  · have named : ∀ name, standsFor (Expression.symbol name) (point name) := fun _ => rfl
    have both := changesScalars (Expression.evaluateRespects (fun a => max_self a) _)
      (Registry.mapsRelated named signals) (grounded _)
    rw [opensLast, opensLast] at both
    cases both with
    | ok runs => exact (runs _ _ (related rfl)).1
  · have valued : ∀ name, above ⟨point name, #v[1]⟩ (point name) := fun _ => rfl
    have both := changesScalars (Dual.valueRespects (fun _ => rfl) fun _ _ => rfl)
      (Registry.mapsRelated valued signals) (grounded _)
    rw [opensLast, opensLast] at both
    cases both with
    | ok runs => exact (runs _ _ (related rfl)).1

end View

end SignalVector
