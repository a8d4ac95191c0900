import SignalVector.Proofs.Chains
import SignalVector.Proofs.Runs

/-! Calls through a lawful vector do not fault. They end as they do on an array, where every
operation is one equation and is refused only for the sizes or the index that it was given. -/
namespace SignalVector

open Update

variable {σ τ T α β ι : Type}

def Faultless (x : Except Failure α) : Prop := ∀ e, x = .error e → ∃ cause, e = .refused cause

def Refuses (result : EStateM.Result Failure σ α) : Prop :=
  ∀ e s, result = .error e s → ∃ cause, e = .refused cause

namespace Faultless

theorem ok (a : α) : Faultless (.ok a) := fun _ failed => nomatch failed

theorem error {e : Failure} (h : ∃ cause, e = .refused cause) :
    Faultless (.error e : Except Failure α) := by
  rintro _ ⟨⟩
  exact h

theorem refused (cause : Refusal) : Faultless (.error (.refused cause) : Except Failure α) :=
  error ⟨cause, rfl⟩

theorem bind {x : Except Failure α} {k : α → Except Failure β} (first : Faultless x)
    (rest : ∀ a, x = .ok a → Faultless (k a)) : Faultless (x >>= k) := by
  cases x with
  | error e => exact error (first e rfl)
  | ok a => exact rest a rfl

theorem map {x : Except Failure α} (h : Faultless x) (f : α → β) : Faultless (f <$> x) := by
  cases x with
  | error e => exact error (h e rfl)
  | ok a => exact ok (f a)

theorem foldl {f : β → ι → Except Failure β} {items : List ι}
    (each : ∀ i ∈ items, ∀ b, Faultless (f b i)) (start : β) :
    Faultless (items.foldlM f start) := by
  induction items generalizing start with
  | nil => exact ok start
  | cons i items ih =>
    rw [List.foldlM_cons]
    exact (each i List.mem_cons_self start).bind fun b _ =>
      ih (fun j member => each j (List.mem_cons_of_mem i member)) b

end Faultless

section Elements

theorem Cells.readSliceFaultless (values : Array T) (index : Nat) :
    Faultless (readSlice values index) := by
  simp only [readSlice]
  split
  · exact .ok _
  · exact .refused _

theorem Cells.Coherent.readFaultless {c : Cells T} (coherent : c.Coherent) (index : Nat) :
    Faultless (c.read index) := by
  obtain ⟨xs, held⟩ := coherent
  rw [held.read]
  exact readSliceFaultless xs index

theorem Operands.checkFaultless (size : Nat) (terms : List (T × Cells T)) :
    Faultless (check size terms) := by
  unfold check
  split
  · exact .refused _
  · exact .ok _

theorem Operands.checkedTerms {size : Nat} {terms : List (T × Cells T)} {o : Operands T}
    (checked : check size terms = .ok o) : o.terms = terms := by
  unfold check at checked
  split at checked
  · contradiction
  · cases checked
    rfl

theorem Operands.sumAtFaultless [Zero T] [Add T] [Mul T] {o : Operands T}
    (coherent : ∀ t ∈ o.terms, t.2.Coherent) (index : Nat) : Faultless (o.sumAt index) :=
  .foldl (fun t member _ => ((coherent t member).readFaultless index).bind fun _ _ => .ok _) 0

end Elements

section Updates

theorem refusesNothing (a : α) (s : σ) : Refuses (.ok a s) := fun _ _ failed => nomatch failed

theorem refusesError {e : Failure} (h : ∃ cause, e = .refused cause) (s : σ) :
    Refuses (.error e s : EStateM.Result Failure σ α) := by
  rintro _ _ ⟨⟩
  exact h

theorem refusesUnless {p : Prop} [Decidable p] {a : α} {s s' : σ} {cause : Refusal} :
    Refuses (if p then .ok a s else .error (.refused cause) s') := by
  split
  · exact refusesNothing a s
  · exact refusesError ⟨cause, rfl⟩ s'

theorem refusesWrap {form : σ → τ} {u : Update σ α} {s : σ} (h : Refuses (u s)) :
    Refuses (u.wrap form s) := by
  simp only [wrap]
  cases run : u s with
  | ok a s' => exact refusesNothing a _
  | error e s' => exact refusesError (h e s' run) _

end Updates

namespace Operation

def Infallible : Operation T → Prop
  | clear => True
  | toArray => True
  | normInf => True
  | walk _ => True
  | _ => False

structure Answers (op : Operation T) (outcome : Outcome T) : Prop where
  faultless : Faultless outcome.result
  answered : op.Infallible → ∃ answer, outcome.result = .ok answer

theorem Answers.done (op : Operation T) (answer : Answer T) (buffer : Option (Array T)) :
    op.Answers ⟨.ok answer, buffer⟩ := ⟨.ok answer, fun _ => ⟨answer, rfl⟩⟩

theorem writingFaultless {u : Update σ Unit} {s : σ} (h : Refuses (u s)) :
    Faultless (writing u s : Outcome T × σ).1.result := by
  simp only [writing]
  cases run : u s with
  | ok a s' => exact .ok _
  | error e s' => exact .error (h e s' run)

theorem fillingFaultless {buffer : β → Option (Array T)} {result : EStateM.Result Failure β Unit}
    (h : Refuses result) (s : σ) : Faultless (filling buffer result s).1.result := by
  cases result with
  | ok a b => exact .ok _
  | error e b => exact .error (h e b rfl)

theorem targetRefuses {copy : Update (Array T) Unit} (h : ∀ target, Refuses (copy target))
    (target : Option (Array T)) : Refuses (Layout.intoTarget copy target) := by
  cases target with
  | none => exact refusesError ⟨.missingTarget, rfl⟩ none
  | some target => exact refusesWrap (h target)

variable [Zero T] [One T] [Add T] [Mul T] [Neg T] [Magnitude T]

theorem flatAnswers (op : Operation T) (coherent : ∀ c ∈ op.operands, c.Coherent) {xs : Array T}
    (small : xs.size < Index.limit) : op.Answers (op.run Flat.layout xs).1 := by
  have held := Cells.holdsOfArray xs
  cases op with
  | get index => exact ⟨(Cells.readSliceFaultless xs index).map _, False.elim⟩
  | set index value => exact ⟨writingFaultless refusesUnless, False.elim⟩
  | setFrom source =>
    obtain ⟨ys, shown⟩ := coherent source (List.mem_singleton_self source)
    refine ⟨writingFaultless ?_, False.elim⟩
    rw [Flat.setFromReads shown.reads]
    exact refusesUnless
  | assign values => exact ⟨writingFaultless refusesUnless, False.elim⟩
  | clear => exact .done ..
  | toArray => exact .done ..
  | copyInto target =>
    exact ⟨fillingFaultless (targetRefuses (fun _ => refusesUnless) target) xs, False.elim⟩
  | scaleAndAddInto scale target =>
    exact ⟨fillingFaultless (targetRefuses (fun _ => refusesUnless) target) xs, False.elim⟩
  | chain links =>
    have readable : ∀ link ∈ links, ∀ x ∈ link.vectors, x.Readable := fun link member x there =>
      (coherent x (List.mem_flatMap.mpr ⟨link, member, there⟩)).readable
    obtain ⟨_, _, _, _, _, _, _, _, ends⟩ := (Flat.layoutReaches xs.size).chainStops readable rfl
    refine ⟨writingFaultless ?_, False.elim⟩
    rcases ends with ⟨-, run⟩ | ⟨_, _, _, _, _, run⟩
    · rw [run]
      exact refusesNothing () _
    · rw [run]
      exact refusesError ⟨_, rfl⟩ _
  | normInf =>
    simp only [run, Layout.normInf, Flat.layout, held.normInf small]
    exact .done ..
  | walk count =>
    simp only [run, Flat.layout, held.walk small count]
    exact .done ..
  | refresh frame =>
    have copied : Refuses (Flat.layout.copyInto xs frame.values) := refusesUnless
    exact ⟨fillingFaultless (refusesWrap copied) xs, False.elim⟩
  | restore frame => exact ⟨writingFaultless refusesUnless, False.elim⟩

theorem runAllAnswers {v : Layout σ T} {inv : σ → Prop} {size : Nat} {elements : σ → Array T}
    (h : v.Lawful inv size elements) (small : size < Index.limit) (ops : List (Operation T))
    (coherent : ∀ op ∈ ops, ∀ c ∈ op.operands, c.Coherent) {s : σ} (hs : inv s) :
    List.Forall₂ Answers ops (runAll v ops s).1 := by
  induction ops generalizing s with
  | nil => exact .nil
  | cons op ops ih =>
    have here := coherent op List.mem_cons_self
    obtain ⟨outcome, -, kept⟩ := runAgrees h small op here hs
    have answers : op.Answers (op.run v s).1 := by
      rw [outcome]
      exact flatAnswers op here (h.sized s hs ▸ small)
    exact .cons answers (ih (fun op' member => coherent op' (List.mem_cons_of_mem op member)) kept)

end Operation

end SignalVector
