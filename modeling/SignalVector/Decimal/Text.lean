import SignalVector.Decimal.Fixed
import SignalVector.Decimal.Shortest

/-!
The text of a binary64 number: positional at every size, without an exponent, the shortest digits
that read back or a given count of places.
-/
namespace SignalVector.Decimal

def signed (negative : Bool) (text : String) : String :=
  if negative then "-" ++ text else text

def Parts.text (places : Option Nat) : Parts → String
  | .notANumber => "NaN"
  | .infinite negative => signed negative "inf"
  | .finite negative size =>
    signed negative (match places with
      | some places => fixed places size
      | none => shortest size)

def text (places : Option Nat) (x : Float) : String := (Parts.ofFloat x).text places

end SignalVector.Decimal
