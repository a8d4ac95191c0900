import SignalVector.Scalar.Program

/-! Programs that read only what was written run to their end. A map between scalar types that
respects the ring operations takes every register of such a run to the same register of the run in
the other type, as long as the program compares no sizes. -/
namespace SignalVector

variable {A B T ι ε : Type}

structure RespectsRing [Zero A] [One A] [Neg A] [Add A] [Sub A] [Mul A] [Zero B] [One B] [Neg B]
    [Add B] [Sub B] [Mul B] (f : A → B) : Prop where
  zero : f 0 = 0
  one : f 1 = 1
  neg : ∀ a, f (-a) = -f a
  add : ∀ a b, f (a + b) = f a + f b
  sub : ∀ a b, f (a - b) = f a - f b
  mul : ∀ a b, f (a * b) = f a * f b

namespace Term

inductive Polynomial : Term ι → Prop
  | zero : Polynomial .zero
  | one : Polynomial .one
  | leaf (i : ι) : Polynomial (.leaf i)
  | neg {a : Term ι} (inside : Polynomial a) : Polynomial (.neg a)
  | add {a b : Term ι} (left : Polynomial a) (right : Polynomial b) : Polynomial (.add a b)
  | sub {a b : Term ι} (left : Polynomial a) (right : Polynomial b) : Polynomial (.sub a b)
  | mul {a b : Term ι} (left : Polynomial a) (right : Polynomial b) : Polynomial (.mul a b)

section Reading

variable [Zero T] [One T] [Neg T] [Add T] [Sub T] [Mul T] [Magnitude T]

theorem traverseRead {t : Term ι} {g : ι → Except ε T} {h : ι → T}
    (each : ∀ i ∈ t.leaves, g i = .ok (h i)) : ∃ u, t.traverse g = .ok u ∧ u.eval id = t.eval h := by
  induction t with
  | zero => exact ⟨.zero, rfl, rfl⟩
  | one => exact ⟨.one, rfl, rfl⟩
  | leaf i =>
    refine ⟨.leaf (h i), ?_, rfl⟩
    simp only [traverse, each i (List.mem_singleton_self i)]
    rfl
  | neg a inside =>
    obtain ⟨u, read, value⟩ := inside each
    refine ⟨.neg u, ?_, congrArg _ value⟩
    simp only [traverse, read]
    rfl
  | magnitude a inside =>
    obtain ⟨u, read, value⟩ := inside each
    refine ⟨.magnitude u, ?_, congrArg _ value⟩
    simp only [traverse, read]
    rfl
  | add a b left right =>
    obtain ⟨u, readLeft, first⟩ := left fun i here => each i (List.mem_append_left _ here)
    obtain ⟨w, readRight, second⟩ := right fun i here => each i (List.mem_append_right _ here)
    refine ⟨.add u w, ?_, by simp only [eval, first, second]⟩
    simp only [traverse, readLeft, readRight]
    rfl
  | sub a b left right =>
    obtain ⟨u, readLeft, first⟩ := left fun i here => each i (List.mem_append_left _ here)
    obtain ⟨w, readRight, second⟩ := right fun i here => each i (List.mem_append_right _ here)
    refine ⟨.sub u w, ?_, by simp only [eval, first, second]⟩
    simp only [traverse, readLeft, readRight]
    rfl
  | mul a b left right =>
    obtain ⟨u, readLeft, first⟩ := left fun i here => each i (List.mem_append_left _ here)
    obtain ⟨w, readRight, second⟩ := right fun i here => each i (List.mem_append_right _ here)
    refine ⟨.mul u w, ?_, by simp only [eval, first, second]⟩
    simp only [traverse, readLeft, readRight]
    rfl
  | larger a b left right =>
    obtain ⟨u, readLeft, first⟩ := left fun i here => each i (List.mem_append_left _ here)
    obtain ⟨w, readRight, second⟩ := right fun i here => each i (List.mem_append_right _ here)
    refine ⟨.larger u w, ?_, by simp only [eval, first, second]⟩
    simp only [traverse, readLeft, readRight]
    rfl

end Reading

variable [Zero A] [One A] [Neg A] [Add A] [Sub A] [Mul A] [Magnitude A] [Zero B] [One B] [Neg B]
  [Add B] [Sub B] [Mul B] [Magnitude B] {f : A → B}

theorem evalMaps (ring : RespectsRing f) {t : Term ι} (polynomial : t.Polynomial) (h : ι → A) :
    f (t.eval h) = t.eval (f ∘ h) := by
  induction polynomial with
  | zero => exact ring.zero
  | one => exact ring.one
  | leaf i => rfl
  | neg inside value => simp only [eval, ring.neg, value]
  | add left right first second => simp only [eval, ring.add, first, second]
  | sub left right first second => simp only [eval, ring.sub, first, second]
  | mul left right first second => simp only [eval, ring.mul, first, second]

end Term

namespace Program

def Scoped : Nat → Program ι → Prop
  | _, [] => True
  | count, step :: steps =>
    (∀ k, Source.register k ∈ step.leaves → k < count) ∧ Scoped (count + 1) steps

def sourceValue [Zero T] (input : ι → T) (registers : Array T) : Source ι → T
  | .input i => input i
  | .register k => registers[k]?.getD 0

section Running

variable [Zero T] [One T] [Neg T] [Add T] [Sub T] [Mul T] [Magnitude T]

theorem runStep (input : ι → T) {step : Term (Source ι)} {registers : Array T}
    (written : ∀ k, Source.register k ∈ step.leaves → k < registers.size) (steps : Program ι) :
    run (fun i => .ok (input i)) (step :: steps) registers =
      run (fun i => .ok (input i)) steps
        (registers.push (step.eval (sourceValue input registers))) := by
  have each : ∀ i ∈ step.leaves, read (fun i => .ok (input i)) registers i =
      .ok (sourceValue input registers i) := by
    intro i here
    cases i with
    | input i => rfl
    | register k => simp [read, sourceValue, written k here]
  obtain ⟨term, traversed, value⟩ := Term.traverseRead each
  simp only [run, traversed, bind, Except.bind, value]

theorem runScoped (input : ι → T) {p : Program ι} {registers : Array T}
    (written : p.Scoped registers.size) :
    ∃ rs, run (fun i => .ok (input i)) p registers = .ok rs ∧
      rs.size = registers.size + p.length := by
  induction p generalizing registers with
  | nil => exact ⟨registers, rfl, rfl⟩
  | cons step steps ih =>
    obtain ⟨here, later⟩ := written
    rw [runStep input here]
    have pushed : Scoped (registers.push (step.eval (sourceValue input registers))).size steps := by
      simpa using later
    obtain ⟨rs, ran, count⟩ := ih pushed
    refine ⟨rs, ran, ?_⟩
    simp only [Array.size_push, List.length_cons] at count ⊢
    omega

end Running

variable [Zero A] [One A] [Neg A] [Add A] [Sub A] [Mul A] [Zero B] [One B] [Neg B] [Add B] [Sub B]
  [Mul B] {f : A → B}

theorem sourceValueMaps (ring : RespectsRing f) (input : ι → A) (registers : Array A) :
    f ∘ sourceValue input registers = sourceValue (f ∘ input) (registers.map f) := by
  funext source
  cases source with
  | input i => rfl
  | register k =>
    simp only [Function.comp_apply, sourceValue, Array.getElem?_map]
    cases registers[k]? with
    | none => exact ring.zero
    | some x => rfl

variable [Magnitude A] [Magnitude B]

theorem runMaps (ring : RespectsRing f) (input : ι → A) {p : Program ι} {registers rs : Array A}
    (polynomial : ∀ t ∈ p, t.Polynomial) (written : p.Scoped registers.size)
    (ran : run (fun i => .ok (input i)) p registers = .ok rs) :
    run (fun i => .ok (f (input i))) p (registers.map f) = .ok (rs.map f) := by
  induction p generalizing registers with
  | nil =>
    cases ran
    rfl
  | cons step steps ih =>
    obtain ⟨here, later⟩ := written
    rw [runStep input here] at ran
    have value := Term.evalMaps ring (polynomial step List.mem_cons_self)
      (sourceValue input registers)
    rw [sourceValueMaps ring] at value
    rw [runStep (fun i => f (input i)) (by simpa using here)]
    have tail := ih (fun t member => polynomial t (List.mem_cons_of_mem step member))
      (by simpa using later) ran
    rw [Array.map_push, value] at tail
    exact tail

end Program

end SignalVector
