import SignalVector.Failure

/-!
Changes of a state that may stop early. What was changed before the failure stays changed, so that
"nothing was written" is a statement about an update and not a consequence of its type.
-/
namespace SignalVector

abbrev Update (σ : Type) := EStateM Failure σ

instance {σ : Type} : MonadLift (Except Failure) (Update σ) where
  monadLift
    | .ok a => pure a
    | .error e => throw e

namespace Update

variable {σ τ α : Type}

def wrap (form : τ → σ) (u : Update τ α) (t : τ) : EStateM.Result Failure σ α :=
  match u t with
  | .ok a t => .ok a (form t)
  | .error e t => .error e (form t)

/-- The same change to a part of a larger state. While the part changes, the state holds `hole` in
its place, so that the part is not shared. -/
def focus (part : σ → τ) (store : τ → σ → σ) (hole : τ) (u : Update τ α) : Update σ α := fun s =>
  let t := part s
  let rest := store hole s
  u.wrap (store · rest) t

def tolerant (u : Update σ Unit) : Update σ Unit := fun s =>
  match u s with
  | .error (.refused _) s => .ok () s
  | r => r

end Update

end SignalVector
