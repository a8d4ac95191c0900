import SignalVector.Proofs.Interchange
import SignalVector.Proofs.NormalForm
import SignalVector.Proofs.Related

/-! What an expression takes from an environment. It stands for a number where all names that it
mentions have one, and nothing else in the environment matters; no operator mentions a name by itself;
and expressions that compare equal stand for numbers which no operation tells apart. -/
namespace SignalVector

namespace Binary64

open Float.Model.UnpackedFloat

theorem zeroAlike {x y : Float} {sign sign' : Sign} (left : bits x = packedZero .binary64 sign)
    (right : bits y = packedZero .binary64 sign') : Alike x y := by
  have known : ∀ {x : Float} {sign : Sign}, bits x = packedZero .binary64 sign → x = 0 ∨ x = -0 := by
    intro x sign packed
    cases sign with
    | positive => exact .inl (sameBits (packed.trans (by decide)))
    | negative => exact .inr (sameBits (packed.trans (by decide)))
  rcases known left with rfl | rfl <;> rcases known right with rfl | rfl <;> decide

theorem mulZeros (a : Float) : Alike (a * 0) (a * -0) := by
  have left := bitsOfProduct a 0
  have right := bitsOfProduct a (-0)
  rw [unpackedZeros.1] at left
  rw [unpackedZeros.2] at right
  cases shown : a.toModel.unpack with
  | notANumber =>
    rw [shown] at left right
    exact .of (sameBits (left.trans right.symm))
  | infinity sign =>
    rw [shown] at left right
    exact .of (sameBits (left.trans right.symm))
  | zero sign =>
    rw [shown] at left right
    exact zeroAlike left right
  | finite sign m e positive =>
    rw [shown] at left right
    exact zeroAlike left right

theorem Alike.mul (a : Float) {x y : Float} (alike : Alike x y) : Alike (a * x) (a * y) := by
  rcases alikeIff.mp alike with rfl | ⟨rfl, rfl⟩ | ⟨rfl, rfl⟩
  · exact .of rfl
  · exact mulZeros a
  · exact (mulZeros a).symm

theorem Alike.larger {x x' y y' : Float} (left : Alike x x') (right : Alike y y') :
    Alike (larger x y) (larger x' y') := by
  have nan : ∀ {x x' : Float}, Alike x x' → x.isNaN = x'.isNaN := by
    intro x x' alike
    rw [Bool.eq_iff_iff, isNaN, isNaN]
    exact alike.nanIff
  simp only [Binary64.larger, nan left, nan right, left.less right]
  split
  · exact right
  · split
    · exact left
    · split
      · exact right
      · exact left

/- The two zeros are told apart by nothing but their sign, which no operation turns into a difference
between numbers. -/
theorem alikeRespects : Respects Alike where
  zero := .of rfl
  one := .of rfl
  add {x x' y y'} left right := by
    have turned : Alike (x + y') (x' + y') := by
      rw [addComm x, addComm x']
      exact left.add y'
    exact (right.add x).trans turned
  mul {x x' y y'} left right := by
    have turned : Alike (x * y') (x' * y') := by
      rw [mulComm x, mulComm x']
      exact left.mul y'
    exact (right.mul x).trans turned
  neg alike := by
    rcases alikeIff.mp alike with rfl | ⟨rfl, rfl⟩ | ⟨rfl, rfl⟩
    · exact .of rfl
    · decide
    · decide
  magnitude alike := by
    rcases alikeIff.mp alike with rfl | ⟨rfl, rfl⟩ | ⟨rfl, rfl⟩
    · exact .of rfl
    · decide
    · decide
  larger := Alike.larger

end Binary64

namespace Expression

variable {R : Type} {e f : Expression R}

section Evaluation

theorem oneMissing (g : R → R) (o : Option R) : (do return g (← o)) = none ↔ o = none := by
  cases o with
  | none => exact iff_of_true rfl rfl
  | some a => exact iff_of_false nofun nofun

theorem pairMissing (g : R → R → R) (o o' : Option R) :
    (do return g (← o) (← o')) = none ↔ o = none ∨ o' = none := by
  cases o with
  | none => exact iff_of_true rfl (.inl rfl)
  | some a =>
    cases o' with
    | none => exact iff_of_true rfl (.inr rfl)
    | some b => exact iff_of_false nofun (not_or.mpr ⟨nofun, nofun⟩)

theorem pairRelated {alike : R → R → Prop} {g : R → R → R}
    (respects : ∀ {a a' b b'}, alike a a' → alike b b' → alike (g a b) (g a' b'))
    {o o' p p' : Option R} (left : Option.Rel alike o o') (right : Option.Rel alike p p') :
    Option.Rel alike (do return g (← o) (← p)) (do return g (← o') (← p')) := by
  cases left with
  | none => exact .none
  | some here =>
    cases right with
    | none => exact .none
    | some there => exact .some (respects here there)

theorem oneRelated {alike : R → R → Prop} {g : R → R}
    (respects : ∀ {a a'}, alike a a' → alike (g a) (g a')) {o o' : Option R}
    (inside : Option.Rel alike o o') :
    Option.Rel alike (do return g (← o)) (do return g (← o')) := by
  cases inside with
  | none => exact .none
  | some here => exact .some (respects here)

theorem mentionedPair {P : String → Prop} {left right : List String} :
    (∃ name ∈ left ++ right, P name) ↔ (∃ name ∈ left, P name) ∨ ∃ name ∈ right, P name := by
  simp only [List.mem_append, or_and_right, exists_or]

variable [Add R] [Mul R] [Neg R] [Magnitude R] {env env' : String → Option R}

theorem evaluateMissing : e.evaluate env = none ↔ ∃ name ∈ e.names, env name = none := by
  induction e with
  | constant c => exact iff_of_false nofun fun ⟨_, mentioned, _⟩ => nomatch mentioned
  | symbol name => simp [evaluate, names]
  | sum a b left right => rw [evaluate, names, mentionedPair, ← left, ← right, pairMissing (· + ·)]
  | product a b left right =>
    rw [evaluate, names, mentionedPair, ← left, ← right, pairMissing (· * ·)]
  | negation a inside => rw [evaluate, names, ← inside, oneMissing (- ·)]
  | absolute a inside => rw [evaluate, names, ← inside, oneMissing magnitude]
  | greater a b left right =>
    rw [evaluate, names, mentionedPair, ← left, ← right, pairMissing larger]

theorem evaluateAgree (agree : ∀ name ∈ e.names, env name = env' name) :
    e.evaluate env = e.evaluate env' := by
  induction e with
  | constant c => rfl
  | symbol name => exact agree name (List.mem_singleton_self name)
  | sum a b left right =>
    obtain ⟨first, second⟩ := List.forall_mem_append.mp agree
    simp only [evaluate, left first, right second]
  | product a b left right =>
    obtain ⟨first, second⟩ := List.forall_mem_append.mp agree
    simp only [evaluate, left first, right second]
  | negation a inside => simp only [evaluate, inside agree]
  | absolute a inside => simp only [evaluate, inside agree]
  | greater a b left right =>
    obtain ⟨first, second⟩ := List.forall_mem_append.mp agree
    simp only [evaluate, left first, right second]

theorem evaluateExtended (kept : ∀ name x, env name = some x → env' name = some x) {x : R}
    (defined : e.evaluate env = some x) : e.evaluate env' = some x := by
  rw [← defined]
  refine (evaluateAgree fun name mentioned => ?_).symm
  cases value : env name with
  | none =>
    have missing : e.evaluate env = none := evaluateMissing.mpr ⟨name, mentioned, value⟩
    rw [missing] at defined
    contradiction
  | some y => exact (kept name y value).symm

structure NamesDecide (e : Expression R) : Prop where
  missing : ∀ env, e.evaluate env = none ↔ ∃ name ∈ e.names, env name = none
  agree : ∀ env env', (∀ name ∈ e.names, env name = env' name) → e.evaluate env = e.evaluate env'
  extended : ∀ env env', (∀ name x, env name = some x → env' name = some x) →
    ∀ x, e.evaluate env = some x → e.evaluate env' = some x

theorem namesDecide (e : Expression R) : NamesDecide e where
  missing _ := evaluateMissing
  agree _ _ := evaluateAgree
  extended _ _ kept _ := evaluateExtended kept

end Evaluation

section Operators

theorem addNames [Zero R] [Add R] [BEq R] (e f : Expression R) :
    (e + f).names ⊆ e.names ++ f.names := by
  change (add e f).names ⊆ _
  unfold add
  split
  · exact List.nil_subset _
  · split
    · exact List.subset_append_right _ _
    · split
      · exact List.subset_append_left _ _
      · exact List.Subset.refl _

theorem mulNames [Zero R] [One R] [Mul R] [BEq R] (e f : Expression R) :
    (e * f).names ⊆ e.names ++ f.names := by
  change (mul e f).names ⊆ _
  unfold mul
  split
  · exact List.nil_subset _
  · split
    · exact List.nil_subset _
    · split
      · exact List.subset_append_right _ _
      · split
        · exact List.subset_append_left _ _
        · exact List.Subset.refl _

theorem negNames [Neg R] (e : Expression R) : (-e).names = e.names := by
  change (neg e).names = _
  unfold neg
  split <;> rfl

theorem subNames [Zero R] [Add R] [Neg R] [BEq R] (e f : Expression R) :
    (e - f).names ⊆ e.names ++ f.names := by
  have sum := addNames e (-f)
  rwa [negNames] at sum

theorem absNames [BEq R] [Magnitude R] (e : Expression R) : (magnitude e).names = e.names := by
  change (abs e).names = _
  unfold abs
  split <;> rfl

theorem maxNames [BEq R] [Magnitude R] (e f : Expression R) :
    (larger e f).names ⊆ e.names ++ f.names := by
  change (max e f).names ⊆ _
  unfold max
  split
  · exact List.nil_subset _
  · split
    · exact List.subset_append_left _ _
    · exact List.Subset.refl _

variable [Zero R] [One R] [Add R] [Mul R] [Neg R] [BEq R] [Magnitude R]

theorem evalNames {ι : Type} (t : Term ι) (leaf : ι → Expression R) :
    ∀ name ∈ (t.eval leaf).names, ∃ i ∈ t.leaves, name ∈ (leaf i).names := by
  have both : ∀ {a b : Term ι} {names : List String},
      names ⊆ (a.eval leaf).names ++ (b.eval leaf).names →
      (∀ name ∈ (a.eval leaf).names, ∃ i ∈ a.leaves, name ∈ (leaf i).names) →
      (∀ name ∈ (b.eval leaf).names, ∃ i ∈ b.leaves, name ∈ (leaf i).names) →
      ∀ name ∈ names, ∃ i ∈ a.leaves ++ b.leaves, name ∈ (leaf i).names := by
    intro a b names operands left right name member
    rcases List.mem_append.mp (operands member) with first | second
    · obtain ⟨i, here, own⟩ := left name first
      exact ⟨i, List.mem_append_left _ here, own⟩
    · obtain ⟨i, here, own⟩ := right name second
      exact ⟨i, List.mem_append_right _ here, own⟩
  induction t with
  | zero => exact fun _ member => nomatch member
  | one => exact fun _ member => nomatch member
  | leaf i => exact fun name member => ⟨i, List.mem_singleton_self i, member⟩
  | neg a inside => exact fun name member => inside name (negNames (a.eval leaf) ▸ member)
  | magnitude a inside => exact fun name member => inside name (absNames (a.eval leaf) ▸ member)
  | add a b left right => exact both (addNames _ _) left right
  | sub a b left right => exact both (subNames _ _) left right
  | mul a b left right => exact both (mulNames _ _) left right
  | larger a b left right => exact both (maxNames _ _) left right

structure NamesStay (e f : Expression R) : Prop where
  add : (e + f).names ⊆ e.names ++ f.names
  sub : (e - f).names ⊆ e.names ++ f.names
  mul : (e * f).names ⊆ e.names ++ f.names
  neg : (-e).names ⊆ e.names
  abs : (magnitude e).names ⊆ e.names
  max : (larger e f).names ⊆ e.names ++ f.names

theorem namesStay (e f : Expression R) : NamesStay e f where
  add := addNames e f
  sub := subNames e f
  mul := mulNames e f
  neg _ member := negNames e ▸ member
  abs _ member := absNames e ▸ member
  max := maxNames e f

end Operators

section Comparison

inductive Compared [BEq R] : Expression R → Expression R → Prop
  | constant {a b : R} (same : (a == b) = true) : Compared (.constant a) (.constant b)
  | symbol (name : String) : Compared (.symbol name) (.symbol name)
  | sum {a b c d : Expression R} (left : Compared a c) (right : Compared b d) :
      Compared (.sum a b) (.sum c d)
  | product {a b c d : Expression R} (left : Compared a c) (right : Compared b d) :
      Compared (.product a b) (.product c d)
  | negation {a b : Expression R} (inside : Compared a b) : Compared (.negation a) (.negation b)
  | absolute {a b : Expression R} (inside : Compared a b) : Compared (.absolute a) (.absolute b)
  | greater {a b c d : Expression R} (left : Compared a c) (right : Compared b d) :
      Compared (.greater a b) (.greater c d)

theorem compared [BEq R] (same : (e == f) = true) : Compared e f := by
  change beq e f = true at same
  fun_induction beq e f with
  | case1 a b => exact .constant same
  | case2 a b => exact eq_of_beq same ▸ .symbol a
  | case3 a b c d left right =>
    obtain ⟨first, second⟩ := Bool.and_eq_true_iff.mp same
    exact .sum (left first) (right second)
  | case4 a b c d left right =>
    obtain ⟨first, second⟩ := Bool.and_eq_true_iff.mp same
    exact .product (left first) (right second)
  | case5 a b inside => exact .negation (inside same)
  | case6 a b inside => exact .absolute (inside same)
  | case7 a b c d left right =>
    obtain ⟨first, second⟩ := Bool.and_eq_true_iff.mp same
    exact .greater (left first) (right second)
  | case8 => contradiction

theorem comparedNames [BEq R] (h : Compared e f) : e.names = f.names := by
  induction h with
  | constant same => rfl
  | symbol name => rfl
  | sum _ _ left right => rw [names, names, left, right]
  | product _ _ left right => rw [names, names, left, right]
  | negation _ inside => rw [names, names, inside]
  | absolute _ inside => rw [names, names, inside]
  | greater _ _ left right => rw [names, names, left, right]

variable [Zero R] [One R] [Add R] [Mul R] [Neg R] [BEq R] [Magnitude R]

/- A name has one value in both trees, and the relation is carried up from the leaves. -/
theorem comparedValues {alike : R → R → Prop} (respects : Respects alike) (refl : ∀ a, alike a a)
    (equal : ∀ a b, (a == b) = true → alike a b) (h : Compared e f) (env : String → Option R) :
    Option.Rel alike (e.evaluate env) (f.evaluate env) := by
  induction h with
  | constant same => exact .some (equal _ _ same)
  | symbol name =>
    simp only [evaluate]
    cases env name with
    | none => exact .none
    | some x => exact .some (refl x)
  | sum _ _ left right => exact pairRelated respects.add left right
  | product _ _ left right => exact pairRelated respects.mul left right
  | negation _ inside => exact oneRelated respects.neg inside
  | absolute _ inside => exact oneRelated respects.magnitude inside
  | greater _ _ left right => exact pairRelated respects.larger left right

structure ComparesAlike (alike : R → R → Prop) (e f : Expression R) : Prop where
  names : e.names = f.names
  values : ∀ env, Option.Rel alike (e.evaluate env) (f.evaluate env)

theorem comparesAlike {alike : R → R → Prop} (respects : Respects alike) (refl : ∀ a, alike a a)
    (equal : ∀ a b, (a == b) = true → alike a b) (same : (e == f) = true) :
    ComparesAlike alike e f :=
  have tree := compared same
  ⟨comparedNames tree, comparedValues respects refl equal tree⟩

end Comparison

end Expression

open Expression (NamesDecide NamesStay ComparesAlike)

/- Of numbers in general a relation is asked for that the operations respect. Binary64 numbers have
one: equal, or both no number. -/
theorem expressionsReadNames :
    (∀ (R : Type) [Zero R] [One R] [Add R] [Mul R] [Neg R] [BEq R] [Magnitude R],
      (∀ e : Expression R, NamesDecide e) ∧ (∀ e f : Expression R, NamesStay e f) ∧
      (∀ (ι : Type) (t : Term ι) (leaf : ι → Expression R),
        ∀ name ∈ (t.eval leaf).names, ∃ i ∈ t.leaves, name ∈ (leaf i).names) ∧
      ∀ alike : R → R → Prop, Respects alike → (∀ a, alike a a) →
        (∀ a b, (a == b) = true → alike a b) →
        ∀ e f : Expression R, (e == f) = true → ComparesAlike alike e f) ∧
    ∀ e f : Expression Float, (e == f) = true → ComparesAlike Binary64.Alike e f := by
  constructor
  · intro R _ _ _ _ _ _ _
    exact ⟨Expression.namesDecide, Expression.namesStay, fun ι => Expression.evalNames,
      fun alike respects refl equal e f => Expression.comparesAlike respects refl equal⟩
  · intro e f
    exact Expression.comparesAlike Binary64.alikeRespects (fun a => .of rfl) fun a b same => .inl same

theorem expressionsReadNamesZeros :
    let e : Expression Float := .sum (.product (.symbol "p") (.constant 0)) (.symbol "q")
    let f : Expression Float := .sum (.product (.symbol "p") (.constant (-0))) (.symbol "q")
    let infinite : String → Option Float := fun name => if name = "p" then some (1 / 0) else none
    (e == f) = true ∧ e.evaluate infinite = none ∧ f.evaluate infinite = none ∧
      Option.Rel Binary64.Alike (e.evaluate fun _ => some (1 / 0)) (f.evaluate fun _ => some (1 / 0)) := by
  intro e f infinite
  obtain ⟨decided, -, -, compared⟩ := expressionsReadNames.1 Float
  have same := compared Binary64.Alike Binary64.alikeRespects (fun a => .of rfl)
    (fun a b equal => .inl equal) e f (by decide)
  have missing : infinite "q" = none := rfl
  refine ⟨by decide, ?_, ?_, (expressionsReadNames.2 e f (by decide)).values _⟩
  · exact ((decided e).missing infinite).mpr ⟨"q", by decide, missing⟩
  · exact ((decided f).missing infinite).mpr ⟨"q", same.names ▸ by decide, missing⟩

end SignalVector
