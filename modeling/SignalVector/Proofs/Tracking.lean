import SignalVector.Update

/-! How updates run, and updates seen through a projection of the state. An update tracks another if
what is shown of the state always changes as the other says, with the same result or failure. It
leaves a quantity if every run ends with the value that it began with, also a run that fails. -/
namespace SignalVector

theorem checkSizeSame {a b : Nat} (h : a = b) : checkSize a b = .ok () := if_pos h

theorem checkSizeOther {a b : Nat} (h : a ≠ b) :
    checkSize a b = .error (.refused (.sizeMismatch a b)) := if_neg h

theorem checkIndexInside {i n : Nat} (h : i < n) : checkIndex i n = .ok () := if_pos h

theorem checkIndexOutside {i n : Nat} (h : n ≤ i) :
    checkIndex i n = .error (.refused (.outOfRange i n)) := if_neg (Nat.not_lt.mpr h)

theorem bindSucceeds {α β : Type} {x : Except Failure α} {k : α → Except Failure β} {b : β}
    (done : (x >>= k) = .ok b) : ∃ a, x = .ok a ∧ k a = .ok b := by
  cases x with
  | error e => contradiction
  | ok a => exact ⟨a, rfl, done⟩

namespace Update

variable {σ τ α α' β ι : Type}

def final : EStateM.Result Failure σ α → σ
  | .ok _ s => s
  | .error _ s => s

def Tracks (inv : σ → Prop) (shown : σ → τ) (u : Update σ α) (f : Update τ α) : Prop :=
  ∀ s, inv s → u.wrap shown s = f (shown s) ∧ inv (final (u s))

def Leaves (inv : σ → Prop) (kept : σ → β) (u : Update σ α) : Prop :=
  ∀ s, inv s → inv (final (u s)) ∧ kept (final (u s)) = kept s

def Alike (inv : σ → Prop) (shown : σ → τ) (u w : Update σ α) : Prop :=
  ∀ s, inv s → u.wrap shown s = w.wrap shown s ∧ inv (final (u s)) ∧ inv (final (w s))

theorem wrapId (u : Update σ α) : u.wrap id = u := by
  funext s
  simp only [wrap]
  cases u s with
  | ok a s' => rfl
  | error e s' => rfl

theorem finalWrap (shown : σ → τ) (u : Update σ α) (s : σ) :
    final (u.wrap shown s) = shown (final (u s)) := by
  simp only [wrap]
  cases u s with
  | ok a s' => rfl
  | error e s' => rfl

section Running

variable (k : α → Update σ β) (s : σ)

@[simp] theorem getBind (k : σ → Update σ β) : ((get : Update σ σ) >>= k) s = k s s := rfl

@[simp] theorem getTheBind (k : σ → Update σ β) : ((getThe σ : Update σ σ) >>= k) s = k s s := rfl

@[simp] theorem okBind (a : α) : ((liftM (.ok a : Except Failure α) : Update σ α) >>= k) s = k a s :=
  rfl

@[simp] theorem errorBind (e : Failure) :
    ((liftM (.error e : Except Failure α) : Update σ α) >>= k) s = .error e s := rfl

theorem forMCons {u : ι → Update σ Unit} {i : ι} (rest : List ι) {s s' : σ}
    (done : u i s = .ok () s') : (i :: rest).forM u s = rest.forM u s' := by
  change (u i >>= fun _ => rest.forM u) s = _
  simp only [bind, EStateM.bind, done]

theorem forMStops {u : ι → Update σ Unit} {i : ι} (rest : List ι) {s s' : σ} {e : Failure}
    (failed : u i s = .error e s') : (i :: rest).forM u s = .error e s' := by
  change (u i >>= fun _ => rest.forM u) s = _
  simp only [bind, EStateM.bind, failed]

theorem forMAppend {u : ι → Update σ Unit} (first rest : List ι) {s s' : σ}
    (done : first.forM u s = .ok () s') : (first ++ rest).forM u s = rest.forM u s' := by
  induction first generalizing s with
  | nil => cases done; rfl
  | cons i first ih =>
    cases run : u i s with
    | ok a t =>
      rw [forMCons first run] at done
      rw [List.cons_append, forMCons (first ++ rest) run]
      exact ih done
    | error e t =>
      change (u i >>= fun _ => first.forM u) s = _ at done
      simp only [bind, EStateM.bind, run] at done
      contradiction

end Running

section Tracking

variable {inv : σ → Prop} {shown : σ → τ}

theorem tracksOk {u : Update σ α} {f : Update τ α} {s s' : σ} {a : α} (run : u s = .ok a s')
    (same : f (shown s) = .ok a (shown s')) (kept : inv s') :
    u.wrap shown s = f (shown s) ∧ inv (final (u s)) := by
  rw [wrap, run, same]
  exact ⟨rfl, kept⟩

theorem tracksError {u : Update σ α} {f : Update τ α} {s : σ} {e : Failure}
    (run : u s = .error e s) (same : f (shown s) = .error e (shown s)) (kept : inv s) :
    u.wrap shown s = f (shown s) ∧ inv (final (u s)) := by
  rw [wrap, run, same]
  exact ⟨rfl, kept⟩

theorem tracksCongr {u u' : Update σ α} {f f' : Update τ α} {s : σ} (left : u s = u' s)
    (right : f (shown s) = f' (shown s))
    (h : u'.wrap shown s = f' (shown s) ∧ inv (final (u' s))) :
    u.wrap shown s = f (shown s) ∧ inv (final (u s)) := by
  simp only [wrap, left, right]
  exact h

theorem tracksRun {u : Update σ α} {f : Update τ α} (h : Tracks inv shown u f) {s : σ} (hs : inv s)
    {a : α} {t : τ} (run : f (shown s) = .ok a t) :
    ∃ s', u s = .ok a s' ∧ inv s' ∧ shown s' = t := by
  obtain ⟨image, kept⟩ := h s hs
  rw [run, wrap] at image
  cases done : u s with
  | ok b s' =>
    rw [done] at image kept
    cases image
    exact ⟨s', rfl, kept, rfl⟩
  | error e s' => rw [done] at image; contradiction

theorem tracksPure (a : α) : Tracks inv shown (pure a) (pure a) := fun _ h => ⟨rfl, h⟩

theorem tracksLift (x : Except Failure α) :
    Tracks inv shown (liftM x : Update σ α) (liftM x : Update τ α) := by
  intro s h
  cases x with
  | ok a => exact ⟨rfl, h⟩
  | error e => exact ⟨rfl, h⟩

/- The state in which the first update starts is fixed, so that bodies which look at the state first
can be followed from there. -/
theorem tracksBindAt {u : Update σ α} {f : Update τ α} {u' : α → Update σ β} {f' : α → Update τ β}
    {s : σ} (first : u.wrap shown s = f (shown s) ∧ inv (final (u s)))
    (rest : ∀ a, Tracks inv shown (u' a) (f' a)) :
    (u >>= u').wrap shown s = (f >>= f') (shown s) ∧ inv (final ((u >>= u') s)) := by
  obtain ⟨image, kept⟩ := first
  simp only [wrap, bind, EStateM.bind] at image ⊢
  cases h : u s with
  | ok a s' =>
    rw [h] at image kept
    rw [← image]
    exact rest a s' kept
  | error e s' =>
    rw [h] at image kept
    rw [← image]
    exact ⟨rfl, kept⟩

theorem tracksBind {u : Update σ α} {f : Update τ α} {u' : α → Update σ β} {f' : α → Update τ β}
    (first : Tracks inv shown u f) (rest : ∀ a, Tracks inv shown (u' a) (f' a)) :
    Tracks inv shown (u >>= u') (f >>= f') :=
  fun s h => tracksBindAt (first s h) rest

theorem tracksForM {u : ι → Update σ Unit} {f : ι → Update τ Unit} (items : List ι)
    (step : ∀ i ∈ items, Tracks inv shown (u i) (f i)) :
    Tracks inv shown (items.forM u) (items.forM f) := by
  induction items with
  | nil => exact tracksPure ()
  | cons i items ih =>
    exact tracksBind (step i List.mem_cons_self)
      fun _ => ih fun j member => step j (List.mem_cons_of_mem i member)

theorem tracksTolerant {u : Update σ Unit} {f : Update τ Unit} (h : Tracks inv shown u f) :
    Tracks inv shown u.tolerant f.tolerant := by
  intro s hs
  obtain ⟨image, kept⟩ := h s hs
  simp only [wrap, tolerant] at image ⊢
  cases hu : u s with
  | ok a s' =>
    rw [hu] at image kept
    rw [← image]
    exact ⟨rfl, kept⟩
  | error e s' =>
    rw [hu] at image kept
    rw [← image]
    cases e with
    | refused cause => exact ⟨rfl, kept⟩
    | faulted cause => exact ⟨rfl, kept⟩

end Tracking

section Leaving

variable {inv : σ → Prop} {kept : σ → β}

theorem leavesPure (a : α) : Leaves inv kept (pure a) := fun _ h => ⟨h, rfl⟩

theorem leavesLift (x : Except Failure α) : Leaves inv kept (liftM x : Update σ α) := by
  intro s h
  cases x with
  | ok a => exact ⟨h, rfl⟩
  | error e => exact ⟨h, rfl⟩

theorem leavesGet {k : σ → Update σ α}
    (h : ∀ s, inv s → inv (final (k s s)) ∧ kept (final (k s s)) = kept s) :
    Leaves inv kept (get >>= k) := h

theorem leavesLiftAt {x : Except Failure α'} {k : α' → Update σ α} {s : σ} (hs : inv s)
    (h : ∀ a, x = .ok a → inv (final (k a s)) ∧ kept (final (k a s)) = kept s) :
    inv (final (((liftM x : Update σ α') >>= k) s)) ∧
      kept (final (((liftM x : Update σ α') >>= k) s)) = kept s := by
  cases x with
  | ok a => exact h a rfl
  | error e => exact ⟨hs, rfl⟩

theorem leavesBind {u : Update σ α} {u' : α → Update σ α'} (first : Leaves inv kept u)
    (rest : ∀ a, Leaves inv kept (u' a)) : Leaves inv kept (u >>= u') := by
  intro s hs
  obtain ⟨held, same⟩ := first s hs
  simp only [bind, EStateM.bind]
  cases h : u s with
  | ok a s' =>
    rw [h] at held same
    obtain ⟨held', same'⟩ := rest a s' held
    exact ⟨held', same'.trans same⟩
  | error e s' =>
    rw [h] at held same
    exact ⟨held, same⟩

theorem leavesForM {u : ι → Update σ Unit} (items : List ι)
    (step : ∀ i ∈ items, Leaves inv kept (u i)) : Leaves inv kept (items.forM u) := by
  induction items with
  | nil => exact leavesPure ()
  | cons i items ih =>
    exact leavesBind (step i List.mem_cons_self)
      fun _ => ih fun j member => step j (List.mem_cons_of_mem i member)

theorem leavesTolerant {u : Update σ Unit} (h : Leaves inv kept u) :
    Leaves inv kept u.tolerant := by
  intro s hs
  obtain ⟨held, same⟩ := h s hs
  simp only [tolerant]
  cases hu : u s with
  | ok a s' =>
    rw [hu] at held same
    exact ⟨held, same⟩
  | error e s' =>
    rw [hu] at held same
    cases e with
    | refused cause => exact ⟨held, same⟩
    | faulted cause => exact ⟨held, same⟩

end Leaving

section Comparing

variable {inv : σ → Prop} {shown : σ → τ} {u w : Update σ α}

theorem tracksAlike {f : Update τ α} (hu : Tracks inv shown u f) (hw : Tracks inv shown w f) :
    Alike inv shown u w :=
  fun s hs => ⟨(hu s hs).1.trans (hw s hs).1.symm, (hu s hs).2, (hw s hs).2⟩

theorem alikeKnown {known : σ → β} (h : Alike inv shown u w)
    (decides : ∀ s, inv s → shown (final (u s)) = shown (final (w s)) →
      known (final (u s)) = known (final (w s))) : Alike inv known u w := by
  intro s hs
  obtain ⟨image, keptU, keptW⟩ := h s hs
  have same := decides s hs
  refine ⟨?_, keptU, keptW⟩
  simp only [wrap] at image ⊢
  cases runU : u s with
  | ok a s' =>
    cases runW : w s with
    | ok b t' =>
      rw [runU, runW] at image same
      obtain ⟨rfl, there⟩ := EStateM.Result.ok.inj image
      exact congrArg (EStateM.Result.ok a) (same there)
    | error e t' => rw [runU, runW] at image; contradiction
  | error e s' =>
    cases runW : w s with
    | ok b t' => rw [runU, runW] at image; contradiction
    | error d t' =>
      rw [runU, runW] at image same
      obtain ⟨rfl, there⟩ := EStateM.Result.error.inj image
      exact congrArg (EStateM.Result.error e) (same there)

theorem alikeLeft {kept : σ → β} (h : Alike inv shown u w) (hu : Leaves inv kept u)
    (hw : Leaves inv kept w) : Alike inv (fun s => (shown s, kept s)) u w :=
  alikeKnown h fun s hs same => Prod.ext same ((hu s hs).2.trans (hw s hs).2.symm)

theorem alikeForM {u w : ι → Update σ Unit} (items : List ι)
    (step : ∀ i ∈ items, Alike inv id (u i) (w i)) :
    Alike inv id (items.forM u) (items.forM w) := by
  induction items with
  | nil => exact fun s hs => ⟨rfl, hs, hs⟩
  | cons i items ih =>
    intro s hs
    obtain ⟨same, keptU, keptW⟩ := step i List.mem_cons_self s hs
    rw [wrapId, wrapId] at same
    cases run : w i s with
    | ok a s' =>
      rw [run] at same keptW
      have rest := ih (fun j member => step j (List.mem_cons_of_mem i member)) s' keptW
      rw [wrapId, wrapId] at rest ⊢
      rw [forMCons items run, forMCons items same]
      exact rest
    | error e s' =>
      rw [run] at same keptW
      rw [wrapId, wrapId, forMStops items run, forMStops items same]
      exact ⟨rfl, keptW, keptW⟩

end Comparing

end Update

end SignalVector
