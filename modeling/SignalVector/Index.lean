import SignalVector.Failure

/-!
Indices and sizes are 64-bit words. A sum that leaves the words and a difference below zero are
faults; a saturating sum stops at the largest word.
-/
namespace SignalVector.Index

def limit : Nat := Nat.pow 2 64

def largest : Nat := limit - 1

def add? (a b : Nat) : Option Nat :=
  if a + b < limit then some (a + b) else none

def add (a b : Nat) : Except Failure Nat :=
  if a + b < limit then .ok (a + b) else .error (.faulted (.overflow a b))

def sub (a b : Nat) : Except Failure Nat :=
  if b ≤ a then .ok (a - b) else .error (.faulted (.underflow a b))

def saturatingAdd (a b : Nat) : Nat := min (a + b) largest

def found {α : Type} (index length : Nat) : Option α → Except Failure α
  | some x => .ok x
  | none => .error (.faulted (.entry index length))

end SignalVector.Index
