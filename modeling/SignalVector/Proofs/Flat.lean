import SignalVector.Operation

/-! The vector that is nothing but its elements. Every operation is one equation on arrays, without
a loop, a cursor or a slice, and fails only with the sizes or the index that it was given. -/
namespace SignalVector

variable {T : Type}

namespace Cells

def item [Zero T] (c : Cells T) (index : Nat) : T :=
  match c.get index with
  | .ok x => x
  | .error _ => 0

end Cells

def sumOfTerms [Zero T] [Add T] [Mul T] (terms : List (T × Cells T)) (index : Nat) : T :=
  terms.foldl (fun sum (scale, x) => sum + x.item index * scale) 0

namespace Link

def vectors : Link T → List (Cells T)
  | add x => [x]
  | subtract x => [x]
  | addScaled _ x => [x]
  | addScaledAll terms => terms.map Prod.snd

/- What a link adds to the element at an index. -/
def increment [Zero T] [One T] [Add T] [Mul T] [Neg T] (index : Nat) : Link T → T
  | add x => 0 + x.item index * 1
  | subtract x => 0 + x.item index * -1
  | addScaled scale x => 0 + x.item index * scale
  | addScaledAll terms => sumOfTerms terms index

theorem vectorsOfTerms [One T] [Neg T] (link : Link T) :
    link.terms.map Prod.snd = link.vectors := by
  cases link <;> rfl

theorem incrementOfTerms [Zero T] [One T] [Add T] [Mul T] [Neg T] (link : Link T) (index : Nat) :
    sumOfTerms link.terms index = link.increment index := by
  cases link <;> rfl

theorem eachVector [One T] [Neg T] {p : Cells T → Prop} {link : Link T} :
    (∀ x ∈ link.vectors, p x) ↔ ∀ t ∈ link.terms, p t.2 := by
  rw [← vectorsOfTerms, List.forall_mem_map]

end Link

namespace Flat

def modify (index : Nat) (f : T → T) : Update (Array T) Unit := fun xs =>
  if index < xs.size then .ok () (xs.modify index f)
  else .error (.refused (.outOfRange index xs.size)) xs

def assign (values : Array T) : Update (Array T) Unit := fun xs =>
  if xs.size = values.size then .ok () values
  else .error (.refused (.sizeMismatch xs.size values.size)) xs

def clear [Zero T] : Update (Array T) Unit := fun xs => .ok () (Array.replicate xs.size 0)

def accumulate [Zero T] [Add T] [Mul T] (operands : Operands T) : Update (Array T) Unit := fun xs =>
  .ok () (xs.mapIdx fun i x => x + sumOfTerms operands.terms i)

def combine (f : T → T → T) (xs : Array T) : Update (Array T) Unit := fun target =>
  if xs.size = target.size then .ok () (Array.zipWith f target xs)
  else .error (.refused (.sizeMismatch xs.size target.size)) target

def layout [Zero T] [Add T] [Mul T] : Layout (Array T) T where
  cells := Cells.ofArray
  modify := modify
  toArray xs := .ok xs
  copyInto := combine fun _ x => x
  scaleAndAddInto scale := combine fun old x => old + scale * x
  bounds _ := .unbounded
  assign := assign
  clear := clear
  accumulate := accumulate

theorem modifyInside {i : Nat} {xs : Array T} (f : T → T) (inside : i < xs.size) :
    modify i f xs = .ok () (xs.modify i f) := if_pos inside

theorem modifyOutside {i : Nat} {xs : Array T} (f : T → T) (outside : xs.size ≤ i) :
    modify i f xs = .error (.refused (.outOfRange i xs.size)) xs := if_neg (Nat.not_lt.mpr outside)

theorem assignFits {values xs : Array T} (same : xs.size = values.size) :
    assign values xs = .ok () values := if_pos same

theorem assignMisfit {values xs : Array T} (other : xs.size ≠ values.size) :
    assign values xs = .error (.refused (.sizeMismatch xs.size values.size)) xs := if_neg other

theorem combineFits {f : T → T → T} {xs target : Array T} (same : xs.size = target.size) :
    combine f xs target = .ok () (Array.zipWith f target xs) := if_pos same

theorem copied {xs target : Array T} (same : xs.size = target.size) :
    Array.zipWith (fun _ x => x) target xs = xs := by
  apply Array.ext <;> simp [same]

theorem combineMisfit {f : T → T → T} {xs target : Array T} (other : xs.size ≠ target.size) :
    combine f xs target = .error (.refused (.sizeMismatch xs.size target.size)) target :=
  if_neg other

end Flat

end SignalVector
