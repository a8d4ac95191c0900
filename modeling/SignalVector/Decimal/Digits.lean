/-!
Positional notation: a whole number of units of some decimal place, written with a fixed number of
places behind the point.
-/
namespace SignalVector.Decimal

def zeros (count : Nat) : String := String.ofList (List.replicate count '0')

def padded (width n : Nat) : String :=
  if width = 0 then ""
  else
    let digits := toString n
    zeros (width - digits.length) ++ digits

/-- The number `n / 10 ^ unit`, with zeros behind it up to `places`; without places there is no
point. -/
def positional (n unit places : Nat) : String :=
  if places = 0 then toString n
  else
    toString (n / Nat.pow 10 unit) ++ "." ++ padded unit (n % Nat.pow 10 unit) ++
      zeros (places - unit)

end SignalVector.Decimal
