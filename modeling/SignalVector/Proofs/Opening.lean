import SignalVector.Proofs.Blocks
import SignalVector.Proofs.Range
import SignalVector.Proofs.Storage
import SignalVector.View.Basic

/-! Opening turns the tree of a view into a vector kept in the registry. What such a vector shows is
the flattened tree: the elements of a base, a slice of the elements of the parent, or the elements
of the blocks one after the other. -/
namespace SignalVector.View

open Update

variable {T : Type}

@[elab_as_elim, induction_eliminator]
theorem onTree {motive : View → Prop} (base : ∀ name, motive (.base name))
    (range : ∀ parent first length, motive parent → motive (.range parent first length))
    (blocks : ∀ parts, (∀ view ∈ parts, motive view) → motive (.blocks parts)) :
    ∀ view, motive view
  | .base name => base name
  | .range parent first length => range parent first length (onTree base range blocks parent)
  | .blocks parts => blocks parts fun view _ => onTree base range blocks view

mutual

def elements : View → Registry T → Array T
  | base name => Registry.valuesOf name
  | range parent first length => Range.slice first length ∘ parent.elements
  | blocks parts => elementsAll parts

def elementsAll : List View → Registry T → Array T
  | [] => fun _ => #[]
  | view :: views => fun r => view.elements r ++ elementsAll views r

end

theorem elementsStore {view : View} {name : String} (other : name ∉ view.names) (b : Base T)
    (r : Registry T) : view.elements (r.store name b) = view.elements r := by
  induction view with
  | base own =>
    have different : own ≠ name := fun same => other (same ▸ List.mem_singleton_self own)
    have same : (r.store name b).find? own = r.find? own :=
      Registry.lookupReplaceOther different b r.entries
    simp only [elements, Registry.valuesOf, Registry.base, same]
  | range parent first length ih => simp only [elements, Function.comp_apply, ih other]
  | blocks parts ih =>
    simp only [elements, names] at other ⊢
    induction parts with
    | nil => rfl
    | cons view views ihViews =>
      simp only [namesAll, List.mem_append, not_or] at other
      simp only [elementsAll, ih view List.mem_cons_self other.1,
        ihViews (fun w member => ih w (List.mem_cons_of_mem view member)) other.2]

section Opened

variable [Zero T] [Add T] [Mul T] {r : Registry T}

inductive Opened (r : Registry T) : View → Layout (Registry T) T → Prop
  | base (name : String) : Opened r (.base name) (Registry.layout name)
  | range {parent : View} {p : Layout (Registry T) T} {first length : Nat} (above : Opened r parent p)
      (fits : first + length ≤ p.size r) (word : first + length < Index.limit) :
      Opened r (.range parent first length) (Range.mk p first length).layout
  | blocks {pairs : List (View × Layout (Registry T) T)} {b : Blocks (Registry T) T}
      (each : ∀ q ∈ pairs, Opened r q.1 q.2) (made : Blocks.make (pairs.map Prod.snd) r = .ok b) :
      Opened r (.blocks (pairs.map Prod.fst)) b.layout

theorem openedAll {views : List View} {vs : List (Layout (Registry T) T)}
    (opened : openAll r views = .ok vs) :
    ∃ pairs : List (View × Layout (Registry T) T), pairs.map Prod.fst = views ∧
      pairs.map Prod.snd = vs ∧ ∀ q ∈ pairs, openIn r q.1 = .ok q.2 := by
  induction views generalizing vs with
  | nil =>
    cases opened
    exact ⟨[], rfl, rfl, fun _ member => nomatch member⟩
  | cons view views ih =>
    obtain ⟨v, here, rest⟩ := bindSucceeds opened
    obtain ⟨tail, later, whole⟩ := bindSucceeds rest
    cases whole
    obtain ⟨pairs, rfl, rfl, each⟩ := ih later
    exact ⟨(view, v) :: pairs, rfl, rfl, List.forall_mem_cons.mpr ⟨here, each⟩⟩

theorem openedParts {α : Type} {parts : List View} {k : Blocks (Registry T) T → α} {a : α}
    (opened : (do return k (← Blocks.make (← openAll r parts) r)) = Except.ok a) :
    ∃ (pairs : List (View × Layout (Registry T) T)) (b : Blocks (Registry T) T),
      pairs.map Prod.fst = parts ∧ (∀ q ∈ pairs, openIn r q.1 = .ok q.2) ∧
      Blocks.make (pairs.map Prod.snd) r = .ok b ∧ k b = a := by
  obtain ⟨vs, all, rest⟩ := bindSucceeds opened
  obtain ⟨b, made, whole⟩ := bindSucceeds rest
  obtain ⟨pairs, rfl, rfl, each⟩ := openedAll all
  exact ⟨pairs, b, rfl, each, made, Except.ok.inj whole⟩

theorem openedSource {view : View} {v : Layout (Registry T) T} (opened : openIn r view = .ok v) :
    Opened r view v := by
  induction view generalizing v with
  | base name =>
    cases opened
    exact .base name
  | range parent first length ih =>
    obtain ⟨p, above, rest⟩ := bindSucceeds opened
    obtain ⟨g, made, whole⟩ := bindSucceeds rest
    cases whole
    obtain ⟨rfl, fits, word⟩ := Range.madeFits made
    exact .range (ih above) fits word
  | blocks parts ih =>
    obtain ⟨pairs, b, rfl, each, made, rfl⟩ := openedParts opened
    exact .blocks (fun q member => ih q.1 (List.mem_map_of_mem member) (each q member)) made

end Opened

end SignalVector.View
