import SignalVector.Proofs.Tracking
import SignalVector.Operation

/-! What a vector does not touch. A vector leaves a quantity of the state if none of its changes,
completed or stopped halfway, gives the quantity another value; then no run through the vector does.
Nothing is asked of the operands, which may refuse any read. -/
namespace SignalVector

open Update

variable {σ T β : Type}

structure Access.Leaves (a : Access σ T) (inv : σ → Prop) (kept : σ → β) : Prop where
  modify : ∀ index f, Update.Leaves inv kept (a.modify index f)
  slots : ∀ s, inv s → ∀ slots, a.slots s = some slots → ∀ values,
    inv (slots.put values) ∧ kept (slots.put values) = kept s

structure Layout.Leaves (v : Layout σ T) (inv : σ → Prop) (kept : σ → β) : Prop
    extends Access.Leaves v.toAccess inv kept where
  assign : ∀ values, Update.Leaves inv kept (v.assign values)
  clear : Update.Leaves inv kept v.clear
  accumulate : ∀ operands, Update.Leaves inv kept (v.accumulate operands)

namespace Access.Leaves

variable {a : Access σ T} {inv : σ → Prop} {kept : σ → β}

theorem set (h : a.Leaves inv kept) (index : Nat) (x : T) : Update.Leaves inv kept (a.set index x) :=
  h.modify index _

theorem assign (h : a.Leaves inv kept) (values : Array T) :
    Update.Leaves inv kept (a.assign values) := by
  refine leavesGet fun s hs => leavesLiftAt hs fun _ _ => ?_
  cases slice : a.slots s with
  | some slots =>
    refine leavesLiftAt hs fun next written => ?_
    unfold Slots.overwrite at written
    split at written
    · cases written
      exact h.slots s hs slots slice _
    · contradiction
  | none =>
    exact leavesForM (u := fun entry => a.set entry.2 entry.1) values.toList.zipIdx
      (fun entry _ => h.set entry.2 entry.1) s hs

theorem clear [Zero T] (h : a.Leaves inv kept) : Update.Leaves inv kept a.clear := by
  refine leavesGet fun s hs => ?_
  cases slice : a.slots s with
  | some slots => exact h.slots s hs slots slice _
  | none => exact leavesForM _ (fun i _ => leavesTolerant (h.set i 0)) s hs

theorem accumulate [Zero T] [Add T] [Mul T] (h : a.Leaves inv kept) (operands : Operands T) :
    Update.Leaves inv kept (a.accumulate operands) :=
  leavesGet fun s hs =>
    leavesForM _ (fun i _ => leavesBind (leavesLift _) fun _ => h.modify i _) s hs

theorem toLayout [Zero T] [Add T] [Mul T] (h : a.Leaves inv kept) : a.toLayout.Leaves inv kept where
  toLeaves := h
  assign := h.assign
  clear := h.clear
  accumulate := h.accumulate

end Access.Leaves

theorem Layout.Leaves.determined {γ : Type} {v : Layout σ T} {inv : σ → Prop} {kept : σ → β}
    {known : σ → γ} (h : v.Leaves inv kept)
    (fixed : ∀ s s', inv s → inv s' → kept s = kept s' → known s = known s') :
    v.Leaves inv known := by
  have step : ∀ {s s'}, inv s → inv s' ∧ kept s' = kept s → inv s' ∧ known s' = known s :=
    fun hs ⟨hs', same⟩ => ⟨hs', fixed _ _ hs' hs same⟩
  exact {
    modify := fun index f s hs => step hs (h.modify index f s hs)
    slots := fun s hs slots found values => step hs (h.slots s hs slots found values)
    assign := fun values s hs => step hs (h.assign values s hs)
    clear := fun s hs => step hs (h.clear s hs)
    accumulate := fun operands s hs => step hs (h.accumulate operands s hs) }

section Focus

variable {τ γ : Type} {inner : τ → Prop} {outer : σ → Prop} {part : σ → τ} {store : τ → σ → σ}
  {hole : τ} {kept : σ → β} {within : τ → γ}

theorem leavesFocus {u : Update τ Unit} (h : Update.Leaves inner within u)
    (enter : ∀ s, outer s → inner (part s)) (leave : ∀ s t, outer s → inner t → outer (store t s))
    (twice : ∀ s t, store t (store hole s) = store t s) (apart : ∀ s t, kept (store t s) = kept s) :
    Update.Leaves outer kept (u.focus part store hole) := by
  intro s hs
  have held := (h (part s) (enter s hs)).1
  simp only [wrap, focus, twice]
  cases run : u (part s) with
  | ok a t => rw [run] at held; exact ⟨leave s t hs held, apart s t⟩
  | error e t => rw [run] at held; exact ⟨leave s t hs held, apart s t⟩

theorem Layout.Leaves.focus {v : Layout τ T} (h : v.Leaves inner within)
    (enter : ∀ s, outer s → inner (part s)) (leave : ∀ s t, outer s → inner t → outer (store t s))
    (twice : ∀ s t, store t (store hole s) = store t s) (apart : ∀ s t, kept (store t s) = kept s) :
    (v.focus part store hole).Leaves outer kept where
  modify index f := leavesFocus (h.modify index f) enter leave twice apart
  slots s hs slots found values := by
    obtain ⟨inside, there, rfl⟩ := Option.map_eq_some_iff.mp found
    have held := (h.slots _ (enter s hs) inside there values).1
    exact ⟨leave s _ hs held, apart s _⟩
  assign values := leavesFocus (h.assign values) enter leave twice apart
  clear := leavesFocus h.clear enter leave twice apart
  accumulate operands := leavesFocus (h.accumulate operands) enter leave twice apart

end Focus

end SignalVector
