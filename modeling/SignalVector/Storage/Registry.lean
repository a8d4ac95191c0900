import SignalVector.Storage.Base

/-!
Base vectors under names. A name under which nothing is stored reads as the empty vector, and
nothing is stored under it by writing through it.
-/
namespace SignalVector

structure Registry (T : Type) where
  entries : List (String × Base T)

namespace Registry

variable {T : Type}

def empty : Registry T := ⟨[]⟩

def find? (r : Registry T) (name : String) : Option (Base T) := r.entries.lookup name

def contains (r : Registry T) (name : String) : Bool := (r.find? name).isSome

def base (r : Registry T) (name : String) : Base T := (r.find? name).getD .empty

def replaceIn (name : String) (b : Base T) : List (String × Base T) → List (String × Base T)
  | [] => []
  | (key, old) :: entries =>
    if name = key then (key, b) :: entries else (key, old) :: replaceIn name b entries

def store (name : String) (b : Base T) (r : Registry T) : Registry T :=
  ⟨replaceIn name b r.entries⟩

def insert (r : Registry T) (name : String) (b : Base T) : Registry T :=
  if r.contains name then r.store name b else ⟨r.entries ++ [(name, b)]⟩

def erase (r : Registry T) (name : String) : Registry T :=
  ⟨r.entries.filter fun (key, _) => key ≠ name⟩

def layout [Zero T] [Add T] [Mul T] (name : String) : Layout (Registry T) T :=
  Base.layout.focus (·.base name) (store name) .empty

end Registry

end SignalVector
