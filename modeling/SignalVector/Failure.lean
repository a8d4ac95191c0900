/-!
How a vector operation ends early. A refusal is an answer that its caller may act on; a fault is a
precondition broken by the caller and ends the computation.
-/
namespace SignalVector

inductive Refusal where
  | outOfRange (index size : Nat)
  | sizeMismatch (expected found : Nat)
  | missingTarget
  deriving DecidableEq, Repr

def Refusal.message : Refusal → String
  | .outOfRange index size => s!"index {index} out of range for vector of size {size}"
  | .sizeMismatch expected found =>
    s!"size mismatch: expected {expected} elements, found {found}"
  | .missingTarget => "required output buffer was not provided"

inductive Fault where
  | seed (index slots : Nat)
  | element (cause : Refusal)
  | entry (index length : Nat)
  | span (start stop length : Nat)
  | lengths (target source : Nat)
  | overflow (left right : Nat)
  | underflow (left right : Nat)
  | capacity (length : Nat)
  | matrix (rows columns : Nat)
  | places (count : Nat)
  | register (index count : Nat)
  deriving DecidableEq, Repr

def Fault.message : Fault → String
  | .seed index slots => s!"seed index {index} out of range for {slots} derivatives"
  | .element cause => cause.message
  | .entry index length =>
    s!"index out of bounds: the len is {length} but the index is {index}"
  | .span start stop length => s!"span {start} to {stop} of a buffer of length {length}"
  | .lengths target source =>
    s!"a buffer of length {source} written over one of length {target}"
  | .overflow left right => s!"index overflow: {left} + {right}"
  | .underflow left right => s!"index underflow: {left} - {right}"
  | .capacity _ => "capacity overflow"
  | .matrix .. => "called `Result::unwrap()` on an `Err` value: CapacityOverflow"
  | .places _ => "Formatting argument out of range"
  | .register index count => s!"register {index} read when {count} were written"

inductive Failure where
  | refused (cause : Refusal)
  | faulted (cause : Fault)
  deriving DecidableEq, Repr

def Failure.message : Failure → String
  | .refused cause => cause.message
  | .faulted cause => cause.message

def checkIndex (index size : Nat) : Except Failure Unit :=
  if index < size then .ok () else .error (.refused (.outOfRange index size))

def checkSize (expected found : Nat) : Except Failure Unit :=
  if expected = found then .ok () else .error (.refused (.sizeMismatch expected found))

end SignalVector
