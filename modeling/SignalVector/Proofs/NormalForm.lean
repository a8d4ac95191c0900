import SignalVector.Proofs.Simplification
import SignalVector.Scalar.Binary64

/-! Expressions are built in a normal form. Each operator restores it from operands that have it, so
nothing is left to fold, drop or strip at any node, and the operators give the same tree again when
they are applied to it from the leaves up. Nothing is asked of the numbers. -/
namespace SignalVector.Expression

variable {R : Type}

def nodes : Expression R → List (Expression R)
  | constant c => [constant c]
  | symbol name => [symbol name]
  | sum a b => sum a b :: (a.nodes ++ b.nodes)
  | product a b => product a b :: (a.nodes ++ b.nodes)
  | negation a => negation a :: a.nodes
  | absolute a => absolute a :: a.nodes
  | greater a b => greater a b :: (a.nodes ++ b.nodes)

def names : Expression R → List String
  | constant _ => []
  | symbol name => [name]
  | sum a b => a.names ++ b.names
  | product a b => a.names ++ b.names
  | negation a => a.names
  | absolute a => a.names
  | greater a b => a.names ++ b.names

def IsNumber (e : Expression R) : Prop := ∃ c, e = constant c

def Avoids [BEq R] (k : R) (e : Expression R) : Prop := ∀ c, e = constant c → (c == k) = false

section Numbers

variable {e f : Expression R}

theorem numberIff : e.IsNumber ↔ ∃ c, e.asConstant = some c :=
  ⟨fun ⟨c, same⟩ => ⟨c, same ▸ rfl⟩, fun ⟨c, known⟩ => ⟨c, constantOf known⟩⟩

theorem noNumberIff : ¬ e.IsNumber ↔ e.asConstant = none := by
  rw [numberIff, not_exists]
  exact Option.eq_none_iff_forall_ne_some.symm

theorem notBoth (other : ∀ c d, e.asConstant = some c → f.asConstant = some d → False) :
    ¬ (e.IsNumber ∧ f.IsNumber) := by
  rintro ⟨left, right⟩
  obtain ⟨c, first⟩ := numberIff.mp left
  obtain ⟨d, second⟩ := numberIff.mp right
  exact other c d first second

theorem noFold (mixed : ¬ (e.IsNumber ∧ f.IsNumber)) {c d : R} (left : e.asConstant = some c)
    (right : f.asConstant = some d) : False :=
  mixed ⟨numberIff.mpr ⟨c, left⟩, numberIff.mpr ⟨d, right⟩⟩

theorem avoidsZero [BEq R] [Zero R] : e.Avoids 0 ↔ ¬ e.isZero = true := by
  cases e <;> simp [Avoids, isZero, asConstant]

theorem avoidsOne [BEq R] [One R] : e.Avoids 1 ↔ ¬ e.isOne = true := by
  cases e <;> simp [Avoids, isOne, asConstant]

end Numbers

variable [BEq R] [Zero R] [One R]

def Settled : Expression R → Prop
  | constant _ => True
  | symbol _ => True
  | sum a b => (a.Avoids 0 ∧ b.Avoids 0) ∧ ¬ (a.IsNumber ∧ b.IsNumber)
  | product a b =>
    (a.Avoids 0 ∧ b.Avoids 0) ∧ (a.Avoids 1 ∧ b.Avoids 1) ∧ ¬ (a.IsNumber ∧ b.IsNumber)
  | negation a => ¬ a.IsNumber ∧ ∀ b, a ≠ negation b
  | absolute a => ¬ a.IsNumber
  | greater a b => (a == b) = false ∧ ¬ (a.IsNumber ∧ b.IsNumber)

def Normal (e : Expression R) : Prop := ∀ node ∈ e.nodes, node.Settled

section Nodes

variable {node a b : Expression R}

/- A node stands before everything below it, so the list of nodes is taken apart by computing. -/
theorem normalLeaf (alone : node.nodes = [node]) : node.Normal ↔ node.Settled := by
  rw [Normal, alone, List.forall_mem_singleton]

theorem normalAbove (below : node.nodes = node :: a.nodes) :
    node.Normal ↔ node.Settled ∧ a.Normal := by
  rw [Normal, below, List.forall_mem_cons, Normal]

theorem normalPair (below : node.nodes = node :: (a.nodes ++ b.nodes)) :
    node.Normal ↔ node.Settled ∧ a.Normal ∧ b.Normal := by
  rw [Normal, below, List.forall_mem_cons, List.forall_mem_append, Normal, Normal]

theorem normalConstant (c : R) : (constant c).Normal := (normalLeaf rfl).mpr trivial

theorem normalSymbol (name : String) : (symbol name : Expression R).Normal :=
  (normalLeaf rfl).mpr trivial

theorem normalSum : (sum a b).Normal ↔ (sum a b).Settled ∧ a.Normal ∧ b.Normal := normalPair rfl

theorem normalProduct : (product a b).Normal ↔ (product a b).Settled ∧ a.Normal ∧ b.Normal :=
  normalPair rfl

theorem normalNegation : (negation a).Normal ↔ (negation a).Settled ∧ a.Normal := normalAbove rfl

theorem normalAbsolute : (absolute a).Normal ↔ (absolute a).Settled ∧ a.Normal := normalAbove rfl

theorem normalGreater : (greater a b).Normal ↔ (greater a b).Settled ∧ a.Normal ∧ b.Normal :=
  normalPair rfl

end Nodes

section Operators

variable {e f : Expression R}

theorem addNormal [Add R] (left : e.Normal) (right : f.Normal) : (e + f).Normal := by
  change (add e f).Normal
  unfold add
  split
  · exact normalConstant _
  · rename_i other
    split
    · exact right
    · rename_i first
      split
      · exact left
      · rename_i second
        have zeros : e.Avoids 0 ∧ f.Avoids 0 := ⟨avoidsZero.mpr first, avoidsZero.mpr second⟩
        exact normalSum.mpr ⟨⟨zeros, notBoth other⟩, left, right⟩

theorem mulNormal [Mul R] (left : e.Normal) (right : f.Normal) : (e * f).Normal := by
  change (mul e f).Normal
  unfold mul
  split
  · exact normalConstant _
  · rename_i other
    split
    · exact normalConstant 0
    · rename_i neither
      rw [Bool.or_eq_true, not_or] at neither
      have zeros : e.Avoids 0 ∧ f.Avoids 0 := ⟨avoidsZero.mpr neither.1, avoidsZero.mpr neither.2⟩
      split
      · exact right
      · rename_i first
        split
        · exact left
        · rename_i second
          have ones : e.Avoids 1 ∧ f.Avoids 1 := ⟨avoidsOne.mpr first, avoidsOne.mpr second⟩
          exact normalProduct.mpr ⟨⟨zeros, ones, notBoth other⟩, left, right⟩

theorem negNormal [Neg R] (inside : e.Normal) : (-e).Normal := by
  change (neg e).Normal
  unfold neg
  split
  · exact normalConstant _
  · exact (normalNegation.mp inside).2
  · rename_i noNumber noNegation
    exact normalNegation.mpr ⟨⟨fun ⟨c, same⟩ => noNumber c same, noNegation⟩, inside⟩

theorem absNormal [Magnitude R] (inside : e.Normal) : (magnitude e).Normal := by
  change (abs e).Normal
  unfold abs
  split
  · exact normalConstant _
  · rename_i noNumber
    exact normalAbsolute.mpr ⟨fun ⟨c, same⟩ => noNumber c same, inside⟩

theorem maxNormal [Magnitude R] (left : e.Normal) (right : f.Normal) : (larger e f).Normal := by
  change (max e f).Normal
  unfold max
  split
  · exact normalConstant _
  · rename_i other
    split
    · exact left
    · rename_i differ
      exact normalGreater.mpr ⟨⟨Bool.eq_false_iff.mpr differ, notBoth other⟩, left, right⟩

theorem addSettled [Add R] (settled : (sum e f).Settled) : e + f = sum e f := by
  obtain ⟨⟨first, second⟩, mixed⟩ := settled
  change add e f = _
  unfold add
  split
  · rename_i left right
    exact (noFold mixed left right).elim
  · rw [if_neg (avoidsZero.mp first), if_neg (avoidsZero.mp second)]

theorem mulSettled [Mul R] (settled : (product e f).Settled) : e * f = product e f := by
  obtain ⟨⟨first, second⟩, ⟨first', second'⟩, mixed⟩ := settled
  change mul e f = _
  unfold mul
  split
  · rename_i left right
    exact (noFold mixed left right).elim
  · have neither : ¬ (e.isZero || f.isZero) = true := by
      rw [Bool.or_eq_true, not_or]
      exact ⟨avoidsZero.mp first, avoidsZero.mp second⟩
    rw [if_neg neither, if_neg (avoidsOne.mp first'), if_neg (avoidsOne.mp second')]

theorem negSettled [Neg R] (settled : (negation e).Settled) : -e = negation e := by
  obtain ⟨noNumber, noNegation⟩ := settled
  change neg e = _
  unfold neg
  split
  · rename_i c
    exact (noNumber ⟨c, rfl⟩).elim
  · rename_i below
    exact (noNegation below rfl).elim
  · rfl

theorem absSettled [Magnitude R] (settled : (absolute e).Settled) : magnitude e = absolute e := by
  change abs e = _
  unfold abs
  split
  · rename_i c
    exact (settled ⟨c, rfl⟩).elim
  · rfl

theorem maxSettled [Magnitude R] (settled : (greater e f).Settled) : larger e f = greater e f := by
  obtain ⟨differ, mixed⟩ := settled
  change max e f = _
  unfold max
  split
  · rename_i left right
    exact (noFold mixed left right).elim
  · simp only [differ, Bool.false_eq_true, if_false]

end Operators

section Names

variable {e a b : Expression R}

omit [BEq R] [Zero R] [One R] in
theorem unnamedPair (left : a.names = [] → a.IsNumber) (right : b.names = [] → b.IsNumber)
    (mixed : ¬ (a.IsNumber ∧ b.IsNumber)) : a.names ++ b.names ≠ [] := by
  intro none
  obtain ⟨first, second⟩ := List.append_eq_nil_iff.mp none
  exact mixed ⟨left first, right second⟩

/- Without a name all leaves are numbers, and numbers are folded wherever they meet. -/
theorem unnamedNumber (normal : e.Normal) (unnamed : e.names = []) : e.IsNumber := by
  induction e with
  | constant c => exact ⟨c, rfl⟩
  | symbol name => exact absurd unnamed (List.cons_ne_nil name [])
  | sum a b left right =>
    obtain ⟨⟨-, mixed⟩, first, second⟩ := normalSum.mp normal
    exact absurd unnamed (unnamedPair (left first) (right second) mixed)
  | product a b left right =>
    obtain ⟨⟨-, -, mixed⟩, first, second⟩ := normalProduct.mp normal
    exact absurd unnamed (unnamedPair (left first) (right second) mixed)
  | negation a inside =>
    obtain ⟨⟨noNumber, -⟩, below⟩ := normalNegation.mp normal
    exact absurd (inside below unnamed) noNumber
  | absolute a inside =>
    obtain ⟨noNumber, below⟩ := normalAbsolute.mp normal
    exact absurd (inside below unnamed) noNumber
  | greater a b left right =>
    obtain ⟨⟨-, mixed⟩, first, second⟩ := normalGreater.mp normal
    exact absurd unnamed (unnamedPair (left first) (right second) mixed)

theorem namedIff (normal : e.Normal) : e.asConstant = none ↔ ∃ name, name ∈ e.names := by
  constructor
  · intro known
    exact List.exists_mem_of_ne_nil _ fun unnamed =>
      noNumberIff.mpr known (unnamedNumber normal unnamed)
  · rintro ⟨name, mentioned⟩
    refine noNumberIff.mp ?_
    rintro ⟨c, rfl⟩
    exact nomatch mentioned

end Names

section Building

variable [Add R] [Mul R] [Neg R] [Magnitude R] {e : Expression R}

inductive Built : Expression R → Prop
  | constant (c : R) : Built (.constant c)
  | symbol (name : String) : Built (.symbol name)
  | zero : Built 0
  | one : Built 1
  | add {e f : Expression R} (left : Built e) (right : Built f) : Built (e + f)
  | sub {e f : Expression R} (left : Built e) (right : Built f) : Built (e - f)
  | mul {e f : Expression R} (left : Built e) (right : Built f) : Built (e * f)
  | neg {e : Expression R} (inside : Built e) : Built (-e)
  | abs {e : Expression R} (inside : Built e) : Built (magnitude e)
  | max {e f : Expression R} (left : Built e) (right : Built f) : Built (larger e f)

def rebuild : Expression R → Expression R
  | constant c => constant c
  | symbol name => symbol name
  | sum a b => a.rebuild + b.rebuild
  | product a b => a.rebuild * b.rebuild
  | negation a => -a.rebuild
  | absolute a => magnitude a.rebuild
  | greater a b => larger a.rebuild b.rebuild

theorem rebuildNormal (normal : e.Normal) : e.rebuild = e := by
  induction e with
  | constant c => rfl
  | symbol name => rfl
  | sum a b left right =>
    obtain ⟨settled, first, second⟩ := normalSum.mp normal
    rw [rebuild, left first, right second, addSettled settled]
  | product a b left right =>
    obtain ⟨settled, first, second⟩ := normalProduct.mp normal
    rw [rebuild, left first, right second, mulSettled settled]
  | negation a inside =>
    obtain ⟨settled, below⟩ := normalNegation.mp normal
    rw [rebuild, inside below, negSettled settled]
  | absolute a inside =>
    obtain ⟨settled, below⟩ := normalAbsolute.mp normal
    rw [rebuild, inside below, absSettled settled]
  | greater a b left right =>
    obtain ⟨settled, first, second⟩ := normalGreater.mp normal
    rw [rebuild, left first, right second, maxSettled settled]

theorem rebuildBuilt (e : Expression R) : Built e.rebuild := by
  induction e with
  | constant c => exact .constant c
  | symbol name => exact .symbol name
  | sum a b left right => exact .add left right
  | product a b left right => exact .mul left right
  | negation a inside => exact .neg inside
  | absolute a inside => exact .abs inside
  | greater a b left right => exact .max left right

/- By induction on the way in which the expression was built, with the lemma of its operator. The
normal form says all there is to say: each expression that has it is built by building it again. -/
theorem builtIff : Built e ↔ e.Normal := by
  constructor
  · intro built
    induction built with
    | constant c => exact normalConstant c
    | symbol name => exact normalSymbol name
    | zero => exact normalConstant 0
    | one => exact normalConstant 1
    | add _ _ left right => exact addNormal left right
    | sub _ _ left right => exact addNormal left (negNormal right)
    | mul _ _ left right => exact mulNormal left right
    | neg _ inside => exact negNormal inside
    | abs _ inside => exact absNormal inside
    | max _ _ left right => exact maxNormal left right
  · intro normal
    exact rebuildNormal normal ▸ rebuildBuilt e

theorem builtNormally (built : Built e) :
    (∀ node ∈ e.nodes, node.Settled) ∧ (e.asConstant = none ↔ ∃ name, name ∈ e.names) ∧
      e.rebuild = e :=
  have normal := builtIff.mp built
  ⟨normal, namedIff normal, rebuildNormal normal⟩

theorem builtNormallyGap :
    let gap : Expression Float :=
      magnitude (symbol "p" * constant (0 / 0) - (symbol "q" + constant (-0)))
    gap = absolute (sum (product (symbol "p") (constant (0 / 0))) (negation (symbol "q"))) ∧
      (∀ node ∈ gap.nodes, node.Settled) ∧
      (gap.asConstant = none ↔ ∃ name, name ∈ gap.names) ∧ gap.rebuild = gap := by
  intro gap
  have built : Built gap :=
    .abs (.sub (.mul (.symbol _) (.constant _)) (.add (.symbol _) (.constant _)))
  exact ⟨rfl, builtNormally built⟩

end Building

end SignalVector.Expression
