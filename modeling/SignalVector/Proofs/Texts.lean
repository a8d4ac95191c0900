import SignalVector.Proofs.Views
import SignalVector.Rendering

/-! The text of a vector. The loop that writes it puts a comma between two elements and nowhere else,
so the text is the joined texts of the elements, and every vector that shows the same elements has
the same text. -/
namespace SignalVector

variable {T : Type} [Render T]

section Loop

theorem writesAccepted {places : Option Nat} (accepted : ∀ count ∈ places, count ≤ mostPlaces)
    (x : T) : write places x = .ok (render places x) := by
  cases places with
  | none => rfl
  | some count => exact if_pos (accepted count rfl)

/- By induction on the elements. The place of the first decides whether a comma comes before it, and
behind it the place is not the first any more. -/
theorem joinedInTurn (places : Option Nat) (x : T) (xs : List T) (k : Nat) (text : String) :
    ((x :: xs).zipIdx k).foldl
        (fun text entry => (if 0 < entry.2 then text ++ ", " else text) ++ render places entry.1)
        text =
      (if 0 < k then text ++ ", " else text) ++ ", ".intercalate ((x :: xs).map (render places)) := by
  induction xs generalizing x k text with
  | nil => simp
  | cons y ys ih =>
    rw [List.zipIdx_cons, List.foldl_cons, ih y (k + 1), if_pos (Nat.succ_pos k)]
    simp only [List.map_cons, String.intercalate_cons_cons, String.append_assoc]

theorem elementsWritten {places : Option Nat} (accepted : ∀ count ∈ places, count ≤ mostPlaces)
    (xs : List T) (text : String) :
    writeElements places xs text = .ok (text ++ ", ".intercalate (xs.map (render places))) := by
  have each : ∀ entry ∈ xs.zipIdx, ∀ text : String, (do
      let text := if 0 < entry.2 then text ++ ", " else text
      return text ++ (← write places entry.1) : Except Failure String) =
      .ok ((if 0 < entry.2 then text ++ ", " else text) ++ render places entry.1) := by
    intro entry _ text
    rw [writesAccepted accepted]
    rfl
  refine (Operands.foldlOk each text).trans (congrArg Except.ok ?_)
  cases xs with
  | nil => simp
  | cons x xs => exact joinedInTurn places x xs 0 text

end Loop

def FormatOptions.layOut (options : FormatOptions) (xs : Array T) : String :=
  let shown := options.maxElements.elim xs.size (min · xs.size)
  let dots := if shown < xs.size then (if 0 < shown then ", " else "") ++ "..." else ""
  "[" ++ ", ".intercalate ((xs.toList.take shown).map (render options.places)) ++ dots ++ "]"

theorem FormatOptions.shownOf (options : FormatOptions) (size : Nat) :
    options.shown size = options.maxElements.elim size (min · size) := by
  unfold shown
  cases options.maxElements <;> rfl

theorem FormatOptions.shownWithin (options : FormatOptions) (size : Nat) :
    options.shown size ≤ size := by
  unfold shown
  split
  · exact Nat.min_le_right _ _
  · exact Nat.le_refl _

theorem Cells.Reads.text {c : Cells T} {xs : Array T} (reads : c.Reads xs)
    (small : xs.size < Index.limit) {options : FormatOptions}
    (accepted : ∀ count ∈ options.places, count ≤ mostPlaces) :
    c.text options = .ok (options.layOut xs) := by
  have taken := Cursor.takeRead reads small (options.shown xs.size) 0
    ((Nat.zero_add _).symm ▸ options.shownWithin xs.size)
  rw [List.drop_zero] at taken
  simp only [Cells.text, Cells.cursor, reads.size, taken, elementsWritten accepted, bind,
    Except.bind, pure, Except.pure, FormatOptions.layOut, ← options.shownOf]
  split
  · split <;> simp [String.append_assoc]
  · simp

theorem madeOnce {α β γ δ : Type} {x : Except Failure α} {make : α → Except Failure β} {k : β → γ}
    {k' : β → δ} {c : γ} {d : δ} (made : (do return k (← make (← x))) = Except.ok c)
    (made' : (do return k' (← make (← x))) = Except.ok d) : ∃ b, k b = c ∧ k' b = d := by
  obtain ⟨a, first, rest⟩ := bindSucceeds made
  obtain ⟨a', first', rest'⟩ := bindSucceeds made'
  cases first.symm.trans first'
  obtain ⟨b, second, whole⟩ := bindSucceeds rest
  obtain ⟨b', second', whole'⟩ := bindSucceeds rest'
  cases second.symm.trans second'
  exact ⟨b, Except.ok.inj whole, Except.ok.inj whole'⟩

namespace View

variable [Zero T] [Add T] [Mul T]

structure Displays (r s : Registry T) (view : View) (v : Layout (Registry T) T) (text : String) :
    Prop where
  plain : (v.cells s).text {} = .ok text
  unknown : v.display s = .ok text
  contiguous : ∀ name c, view = .base name → s.base name = .contiguous c →
    Contiguous.access.display c = .ok text
  column : ∀ name c, view = .base name → s.base name = .column c →
    Column.access.display c = .ok text
  range : ∀ g, openRange? r view = .ok (some g) → g.access.display s = .ok text
  blocks : ∀ b, openBlocks? r view = .ok (some b) → b.access.display s = .ok text

variable {r s : Registry T} {view : View} {v : Layout (Registry T) T}

omit [Render T] in
theorem openedRange {g : Range (Registry T) T} (opened : openIn r view = .ok v)
    (range : openRange? r view = .ok (some g)) : v = g.layout := by
  cases view with
  | base name => simp [openRange?] at range
  | blocks parts => simp [openRange?] at range
  | range parent first length =>
    obtain ⟨g', rfl, same⟩ := madeOnce opened range
    cases same
    rfl

omit [Render T] in
theorem openedBlocks {b : Blocks (Registry T) T} (opened : openIn r view = .ok v)
    (blocks : openBlocks? r view = .ok (some b)) : v = b.layout := by
  cases view with
  | base name => simp [openBlocks?] at blocks
  | range parent first length => simp [openBlocks?] at blocks
  | blocks parts =>
    obtain ⟨b', rfl, same⟩ := madeOnce opened blocks
    cases same
    rfl

theorem displays (opened : openIn r view = .ok v) {text : String}
    (plain : (v.cells s).text {} = .ok text) : Displays r s view v text where
  plain := plain
  unknown := plain
  contiguous := by
    rintro name c rfl stored
    cases opened
    change (Base.layout.cells (s.base name)).text {} = _ at plain
    rw [stored] at plain
    exact plain
  column := by
    rintro name c rfl stored
    cases opened
    change (Base.layout.cells (s.base name)).text {} = _ at plain
    rw [stored] at plain
    exact plain
  range g range := by
    cases openedRange opened range
    exact plain
  blocks b blocks := by
    cases openedBlocks opened blocks
    exact plain

theorem textsOfElements (opened : openIn r view = .ok v) (measured : s.HasShapes r.shapes)
    (small : v.size s < Index.limit) :
    ((view.elements s).size = v.size s ∧
      ∀ i (inside : i < (view.elements s).size), (v.cells s).get i = .ok (view.elements s)[i]) ∧
    (∀ options : FormatOptions, (∀ count ∈ options.places, count ≤ mostPlaces) →
      (v.cells s).text options = .ok (options.layOut (view.elements s))) ∧
    Displays r s view v (FormatOptions.layOut {} (view.elements s)) := by
  have reads := (cellsHold (openedSource opened) measured).1.reads
  have word : (view.elements s).size < Index.limit := reads.size ▸ small
  exact ⟨⟨reads.size.symm, reads.get⟩, fun _ accepted => reads.text word accepted,
    displays opened (reads.text word nofun)⟩

theorem textsOfElementsTail :
    (tailOpened.cells twoBases).text ⟨some 1, some 2⟩ = .ok "[2.0, 3.0, ...]" ∧
      (tailOpened.cells twoBases).text ⟨none, some 0⟩ = .ok "[...]" ∧
      Displays twoBases twoBases tailJoined tailOpened "[2, 3, 4]" := by
  obtain ⟨-, texts, displays⟩ := textsOfElements opensTail rfl (by decide)
  exact ⟨texts ⟨some 1, some 2⟩ (by decide), texts ⟨none, some 0⟩ nofun, displays⟩

end View

end SignalVector
