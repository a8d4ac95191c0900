import SignalVector.Decimal.Binary
import SignalVector.Decimal.Digits

/-!
The shortest decimal that reads back as a given binary64 number. On each decimal grid, from coarse
to fine, the two neighbours of the number are tried; the first grid with a neighbour that rounds to
the number wins.
-/
namespace SignalVector.Decimal

/-- Quarters of the mantissa's unit, counted in decimal units: `numerator / denominator` of them
make one unit of the grid's place. -/
structure Grid where
  place : Int
  numerator : Nat
  denominator : Nat

def Grid.at (b : Binary) (place : Int) : Grid where
  place := place
  numerator := Nat.pow 2 (b.exponent - 2).toNat * Nat.pow 10 (-place).toNat
  denominator := Nat.pow 2 (2 - b.exponent).toNat * Nat.pow 10 place.toNat

/-- Below a power of two the next number is only half as far away. -/
def Binary.below (b : Binary) : Nat :=
  if b.mantissa = Nat.pow 2 52 then 4 * b.mantissa - 1 else 4 * b.mantissa - 2

def Binary.above (b : Binary) : Nat := 4 * b.mantissa + 2

/-- Whether `count` units of the grid round to `b`; the ends of the interval go to the even
mantissa. -/
def Grid.reads (g : Grid) (b : Binary) (count : Nat) : Bool :=
  let low := b.below * g.numerator
  let high := b.above * g.numerator
  let x := count * g.denominator
  if b.mantissa % 2 = 0 then low ≤ x && x ≤ high else low < x && x < high

/-- The neighbour of `b` on the grid that rounds to `b`, of two the nearer, of two equally near
the upper. -/
def Grid.nearest? (g : Grid) (b : Binary) : Option Nat :=
  let exact := 4 * b.mantissa * g.numerator
  let down := exact / g.denominator
  let up := down + 1
  match g.reads b down, g.reads b up with
  | true, true =>
    some (if exact - down * g.denominator < up * g.denominator - exact then down else up)
  | true, false => some down
  | false, true => some up
  | false, false => none

def Binary.leadingPlace (b : Binary) : Int :=
  if b.denominator ≤ b.numerator then (toString (b.numerator / b.denominator)).length
  else 2 - ((toString (b.denominator / b.numerator)).length : Int)

/-- Seventeen digits always suffice; the grids start above the number. -/
def Binary.shortest (b : Binary) : Nat × Int :=
  let top := b.leadingPlace
  let grids := (List.range 20).map fun (k : Nat) => Grid.at b (top - k)
  match grids.findSome? fun g => (g.nearest? b).map fun count => (count, g.place) with
  | some found => found
  | none => (b.numerator, 0)

def shortest (b : Binary) : String :=
  if b.mantissa = 0 then toString 0
  else
    let (count, place) := b.shortest
    positional (count * Nat.pow 10 place.toNat) (-place).toNat (-place).toNat

end SignalVector.Decimal
