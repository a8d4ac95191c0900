import SignalVector.Proofs.Views

/-! Iteration by a cursor. The next element and the count of elements ahead may be asked for in any
order: each element comes once and in its place, the count is exact at every moment, and an iteration
that has ended stays at its end. -/
namespace SignalVector

variable {T : Type}

namespace Cursor

inductive Call where
  | next
  | length
  | sizeHint
  deriving DecidableEq, Repr

inductive Reply (T : Type) where
  | next (x : Option T)
  | length (count : Nat)
  | sizeHint (bounds : Nat × Option Nat)

def call (c : Cursor T) : Call → Except Failure (Reply T × Cursor T)
  | .next => do
    match ← c.next? with
    | some (x, behind) => return (.next (some x), behind)
    | none => return (.next none, c)
  | .length => .ok (.length c.length, c)
  | .sizeHint => .ok (.sizeHint c.sizeHint, c)

def callAll (c : Cursor T) : List Call → Except Failure (List (Reply T) × Cursor T)
  | [] => .ok ([], c)
  | call :: calls => do
    let (reply, c) ← c.call call
    let (replies, c) ← c.callAll calls
    return (reply :: replies, c)

def Reply.step? : Reply T → Option (Option T)
  | .next x => some x
  | _ => none

inductive Answers (c : Cells T) (steps : Nat) : Call → Reply T → Prop
  | next {x : T} (inside : steps < c.size) (shown : c.get steps = .ok x) :
      Answers c steps .next (.next (some x))
  | ended (outside : c.size ≤ steps) : Answers c steps .next (.next none)
  | length : Answers c steps .length (.length (c.size - min steps c.size))
  | sizeHint : Answers c steps .sizeHint
      (.sizeHint (c.size - min steps c.size, some (c.size - min steps c.size)))

inductive Trace (c : Cells T) : Nat → List Call → List (Reply T) → Prop
  | nil (steps : Nat) : Trace c steps [] []
  | cons {steps : Nat} {call : Call} {reply : Reply T} {calls : List Call} {replies : List (Reply T)}
      (answers : Answers c steps call reply)
      (rest : Trace c (steps + [call].count .next) calls replies) :
      Trace c steps (call :: calls) (reply :: replies)

structure Iterated (c : Cells T) (calls : List Call) (replies : List (Reply T)) (last : Cursor T) :
    Prop where
  trace : Trace c 0 calls replies
  items : ∃ items : List T,
    items.map .ok = (List.range (min (calls.count .next) c.size)).map c.get ∧
      replies.filterMap Reply.step? =
        items.map some ++ List.replicate (calls.count .next - c.size) none
  length : last.length = c.size - min (calls.count .next) c.size
  sizeHint : last.sizeHint = (c.size - min (calls.count .next) c.size,
    some (c.size - min (calls.count .next) c.size))
  ended : c.size ≤ calls.count .next → last.call .next = .ok (.next none, last)

section Held

variable {c : Cells T} {xs : Array T} (held : c.Holds xs)

include held

theorem lengthAfter (steps : Nat) :
    (Cursor.mk c (min steps xs.size)).length = c.size - min steps c.size := by
  rw [Cursor.length, held.size]

theorem stepsInOrder (count : Nat) : ∃ items : List T,
    items.map .ok = (List.range (min count c.size)).map c.get ∧
      (List.range' 0 count).map (xs[·]?) =
        items.map some ++ List.replicate (count - c.size) none := by
  refine ⟨xs.toList.take count, ?_, ?_⟩
  · apply List.ext_getElem
    · simp [held.size]
    · intro i inside _
      have there : i < xs.size := by simp at inside; omega
      simp [held.get i, Cells.readSliceInside there]
  · apply List.ext_getElem
    · simp [held.size]
      omega
    · intro i inside _
      have before : i < count := by simpa using inside
      by_cases there : i < xs.size
      · rw [List.getElem_append_left (by simp; omega)]
        simp [there]
      · rw [List.getElem_append_right (by simp; omega)]
        simp [there]

variable (small : xs.size < Index.limit)

include small

theorem callNext (steps : Nat) : (Cursor.mk c (min steps xs.size)).call .next =
    .ok (.next xs[steps]?, ⟨c, min (steps + 1) xs.size⟩) := by
  simp only [call, nextHeld held small, bind, Except.bind]
  by_cases inside : steps < xs.size
  · have here : min steps xs.size = steps := Nat.min_eq_left (Nat.le_of_lt inside)
    have behind : min (steps + 1) xs.size = steps + 1 := Nat.min_eq_left inside
    rw [here, behind, Array.getElem?_eq_getElem inside]
    rfl
  · have outside : xs.size ≤ steps := Nat.not_lt.mp inside
    have here : min steps xs.size = xs.size := Nat.min_eq_right outside
    have still : min (steps + 1) xs.size = xs.size :=
      Nat.min_eq_right (Nat.le_succ_of_le outside)
    rw [here, still, Array.getElem?_eq_none (Nat.le_refl _), Array.getElem?_eq_none outside]
    rfl

theorem callAnswers (steps : Nat) (call : Call) : ∃ reply,
    (Cursor.mk c (min steps xs.size)).call call =
      .ok (reply, ⟨c, min (steps + [call].count .next) xs.size⟩) ∧
    Answers c steps call reply ∧
    [reply].filterMap Reply.step? = (List.range' steps ([call].count .next)).map (xs[·]?) := by
  cases call with
  | next =>
    refine ⟨_, callNext held small steps, ?_, rfl⟩
    by_cases inside : steps < xs.size
    · rw [Array.getElem?_eq_getElem inside]
      exact .next (held.size.symm ▸ inside)
        ((held.get steps).trans (Cells.readSliceInside inside))
    · have outside : xs.size ≤ steps := Nat.not_lt.mp inside
      rw [Array.getElem?_eq_none outside]
      exact .ended (held.size.symm ▸ outside)
  | length =>
    refine ⟨.length _, rfl, ?_, rfl⟩
    rw [lengthAfter held]
    exact .length
  | sizeHint =>
    refine ⟨.sizeHint _, rfl, ?_, rfl⟩
    rw [Cursor.sizeHint, lengthAfter held]
    exact .sizeHint

theorem callsTraced (steps : Nat) (calls : List Call) : ∃ replies,
    (Cursor.mk c (min steps xs.size)).callAll calls =
      .ok (replies, ⟨c, min (steps + calls.count .next) xs.size⟩) ∧
    Trace c steps calls replies ∧
    replies.filterMap Reply.step? = (List.range' steps (calls.count .next)).map (xs[·]?) := by
  induction calls generalizing steps with
  | nil => exact ⟨[], rfl, .nil steps, rfl⟩
  | cons call calls ih =>
    obtain ⟨reply, called, answers, step⟩ := callAnswers held small steps call
    obtain ⟨replies, calledAll, trace, rest⟩ := ih (steps + [call].count .next)
    have count : ([call] ++ calls).count .next = [call].count .next + calls.count .next :=
      List.count_append
    rw [List.singleton_append] at count
    refine ⟨reply :: replies, ?_, .cons answers trace, ?_⟩
    · simp only [callAll, called, calledAll, bind, Except.bind, pure, Except.pure, count,
        Nat.add_assoc]
    · rw [count, ← List.range'_append_1, List.map_append, ← step, ← rest]
      exact (List.filterMap_append : ([reply] ++ replies).filterMap _ = _)

theorem iterated (calls : List Call) : ∃ replies last,
    c.cursor.callAll calls = .ok (replies, last) ∧ Iterated c calls replies last := by
  obtain ⟨replies, called, trace, steps⟩ := callsTraced held small 0 calls
  rw [Nat.zero_min, Nat.zero_add] at called
  obtain ⟨items, shown, returned⟩ := stepsInOrder held (calls.count .next)
  refine ⟨replies, _, called, trace, ⟨items, shown, steps.trans returned⟩, ?_, ?_, ?_⟩
  · exact lengthAfter held _
  · rw [Cursor.sizeHint, lengthAfter held]
  · intro outside
    rw [held.size] at outside
    rw [callNext held small, Array.getElem?_eq_none outside, Nat.min_eq_right outside,
      Nat.min_eq_right (Nat.le_succ_of_le outside)]

end Held

end Cursor

theorem iteratesExactly :
    (∀ c : Cells T, c.Coherent → c.size < Index.limit → ∀ calls, ∃ replies last,
      c.cursor.callAll calls = .ok (replies, last) ∧ Cursor.Iterated c calls replies last) ∧
    ∀ [Zero T] [Add T] [Mul T] (r s : Registry T) (view : View) (v : Layout (Registry T) T),
      view.openIn r = .ok v → s.HasShapes r.shapes → v.size s < Index.limit → ∀ calls,
      ∃ replies last, (v.cells s).cursor.callAll calls = .ok (replies, last) ∧
        Cursor.Iterated (v.cells s) calls replies last := by
  constructor
  · rintro c ⟨xs, held⟩ small
    exact Cursor.iterated held (held.size ▸ small)
  · intro _ _ _ r s view v opened measured small
    obtain ⟨held, -⟩ := View.cellsHold (View.openedSource opened) measured
    have word : (view.elements s).size < Index.limit := held.size ▸ small
    exact Cursor.iterated held word

theorem iteratesExactlyTail :
    let calls : List Cursor.Call := [.next, .length, .next, .next, .next, .sizeHint, .next]
    ∃ replies last, (View.tailOpened.cells View.twoBases).cursor.callAll calls =
        .ok (replies, last) ∧ replies =
          [.next (some 2), .length 2, .next (some 3), .next (some 4), .next none,
            .sizeHint (0, some 0), .next none] ∧
        Cursor.Iterated (View.tailOpened.cells View.twoBases) calls replies last := by
  intro calls
  obtain ⟨replies, last, called, iterated⟩ :=
    iteratesExactly.2 View.twoBases View.twoBases _ _ View.opensTail rfl (by decide) calls
  refine ⟨replies, last, called, ?_, iterated⟩
  cases called
  rfl

end SignalVector
