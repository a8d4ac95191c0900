import SignalVector.Proofs.Opening
import SignalVector.Scalar.Binary64

/-! Every opened view is lawful: it reads and changes the flattened elements as the vector of
nothing but these elements does. The bases must be stored and no base may occur twice; for reading
alone neither is needed. -/
namespace SignalVector.View

open Update

variable {T : Type}

theorem memNamesAll {views : List View} {name : String} :
    name ∈ namesAll views ↔ ∃ view ∈ views, name ∈ view.names := by
  induction views with
  | nil => simp [namesAll]
  | cons view views ih => simp [namesAll, ih]

theorem onceAll {views : List View} (once : (namesAll views).Nodup) :
    (∀ view ∈ views, view.names.Nodup) ∧
      views.Pairwise fun view w => ∀ name ∈ view.names, name ∉ w.names := by
  induction views with
  | nil => exact ⟨fun _ member => (nomatch member), .nil⟩
  | cons view views ih =>
    obtain ⟨own, later, apart⟩ := List.nodup_append.mp once
    obtain ⟨each, pairwise⟩ := ih later
    refine ⟨List.forall_mem_cons.mpr ⟨own, each⟩, .cons ?_ pairwise⟩
    intro w member name here there
    exact apart name here name (memNamesAll.mpr ⟨w, member, there⟩) rfl

structure Grounded (r : Registry T) (view : View) : Prop where
  bases : ∀ name ∈ view.names, ∃ b, r.find? name = some b ∧ b.values.size < Index.limit
  once : view.names.Nodup

theorem Grounded.base {r : Registry T} {name : String} (h : Grounded r (.base name)) :
    ∃ sh, r.shapes name = some sh ∧ (elements (.base name) r).size = sh.size ∧
      sh.size < Index.limit := by
  obtain ⟨b, found, word⟩ := h.bases name (List.mem_singleton_self name)
  have sized : b.values.size = b.shape.size := Base.sizeOfShape rfl
  refine ⟨b.shape, congrArg (Option.map Base.shape) found, ?_, sized ▸ word⟩
  rw [elements, Registry.valuesOf, Registry.baseFound found, sized]

theorem Grounded.parent {r : Registry T} {view : View} {first length : Nat}
    (h : Grounded r (.range view first length)) : view.Grounded r := ⟨h.bases, h.once⟩

theorem Grounded.part {r : Registry T} {views : List View} (h : Grounded r (.blocks views))
    {view : View} (member : view ∈ views) : view.Grounded r where
  bases name here := h.bases name (memNamesAll.mpr ⟨view, member, here⟩)
  once := (onceAll h.once).1 view member

section Parts

variable {r : Registry T} {pairs : List (View × Layout (Registry T) T)}

def asPart (r : Registry T) (q : View × Layout (Registry T) T) : Part (Registry T) T :=
  ⟨q.2, (q.1.elements r).size, q.1.elements⟩

theorem joinedParts (pairs : List (View × Layout (Registry T) T)) (s : Registry T) :
    Part.joined s (pairs.map (asPart r)) = elementsAll (pairs.map Prod.fst) s := by
  induction pairs with
  | nil => rfl
  | cons q pairs ih =>
    simp only [List.map_cons, Part.joined, elementsAll, ih]
    rfl

theorem totalParts (pairs : List (View × Layout (Registry T) T)) :
    Part.total (pairs.map (asPart r)) = (elementsAll (pairs.map Prod.fst) r).size := by
  rw [← joinedParts (r := r), Part.sizeJoined]
  intro p member
  obtain ⟨q, -, rfl⟩ := List.mem_map.mp member
  rfl

theorem joinsParts {b : Blocks (Registry T) T} (made : Blocks.make (pairs.map Prod.snd) r = .ok b)
    (sized : ∀ q ∈ pairs, q.2.size r = (q.1.elements r).size) : b.Joins (pairs.map (asPart r)) := by
  have layouts : (pairs.map (asPart r)).map Part.layout = pairs.map Prod.snd := by
    rw [List.map_map]
    rfl
  refine Blocks.madeJoins (s := r) (layouts ▸ made) fun p member => ?_
  obtain ⟨q, there, rfl⟩ := List.mem_map.mp member
  exact sized q there

end Parts

section Opened

variable [Zero T] [Add T] [Mul T] {r : Registry T} {view : View} {v : Layout (Registry T) T}
  {pairs : List (View × Layout (Registry T) T)}

/- A view measured in one registry reads any other in which the bases have the same shapes. -/
theorem cellsHold (opened : Opened r view v) {s : Registry T} (hs : s.HasShapes r.shapes) :
    (v.cells s).Holds (view.elements s) ∧ (view.elements s).size = (view.elements r).size := by
  induction opened generalizing s with
  | base name => exact ⟨Base.cellsHold (s.base name), Registry.sizeOfShapes hs name⟩
  | @range parent p first length above fits word ih =>
    have measured : first + length ≤ (parent.elements r).size := (ih rfl).1.size ▸ fits
    obtain ⟨held, same⟩ := ih hs
    have within : first + length ≤ (parent.elements s).size := same.symm ▸ measured
    exact ⟨Range.cellsHold (r := ⟨p, first, length⟩) held within word,
      (Range.sizeSlice within).trans (Range.sizeSlice measured).symm⟩
  | @blocks pairs b each made ih =>
    have joins := joinsParts made fun q member => (ih q member rfl).1.size
    have shows : ∀ p ∈ pairs.map (asPart r), (p.layout.cells s).Holds (p.elements s) ∧
        (p.elements s).size = p.size := by
      intro p member
      obtain ⟨q, there, rfl⟩ := List.mem_map.mp member
      exact ih q there hs
    have held := Blocks.cellsHold joins (fun p h => (shows p h).1.reads) fun p h => (shows p h).2
    have sized := Part.sizeJoined fun p h => (shows p h).2
    rw [joinedParts] at held sized
    exact ⟨held, sized.trans (totalParts pairs)⟩

theorem measured (opened : Opened r view v) : v.size r = (view.elements r).size :=
  (cellsHold opened rfl).1.size

theorem rangeFits {parent : View} {first length : Nat} (opened : Opened r parent v)
    (fits : first + length ≤ v.size r) : first + length ≤ (parent.elements r).size ∧
      (elements (.range parent first length) r).size = length := by
  have within : first + length ≤ (parent.elements r).size := measured opened ▸ fits
  exact ⟨within, Range.sizeSlice within⟩

theorem blocksJoin {b : Blocks (Registry T) T} (each : ∀ q ∈ pairs, Opened r q.1 q.2)
    (made : Blocks.make (pairs.map Prod.snd) r = .ok b) : b.Joins (pairs.map (asPart r)) :=
  joinsParts made fun q member => measured (each q member)

/-- What a view shows at one moment. The registry may have changed since the view was opened. -/
def Shows (c : Cells T) : Prop :=
  ∃ (view : View) (r s : Registry T) (v : Layout (Registry T) T),
    openIn r view = .ok v ∧ Registry.HasShapes r.shapes s ∧ c = v.cells s

theorem coherent {c : Cells T} (shows : Shows c) : c.Coherent := by
  obtain ⟨view, r, s, v, opened, same, rfl⟩ := shows
  exact ⟨view.elements s, (cellsHold (openedSource opened) same).1⟩

theorem layoutLeaves {β : Type} {kept : Registry T → β} (opened : Opened r view v)
    (grounded : view.Grounded r)
    (apart : ∀ name ∈ view.names, ∀ s b, kept (s.store name b) = kept s) :
    v.Leaves (Registry.HasShapes r.shapes) kept := by
  induction opened with
  | base name =>
    obtain ⟨sh, there, -⟩ := grounded.base
    exact Registry.layoutLeaves there fun s b => apart name (List.mem_singleton_self name) s b
  | range above fits word ih => exact (Range.accessLeaves (ih grounded.parent apart)).toLayout
  | @blocks pairs b each made ih =>
    refine Blocks.layoutLeaves (blocksJoin each made) fun p member => ?_
    obtain ⟨q, there, rfl⟩ := List.mem_map.mp member
    have part : q.1 ∈ pairs.map Prod.fst := List.mem_map_of_mem there
    exact ih q there (grounded.part part) fun name here =>
      apart name (memNamesAll.mpr ⟨q.1, part, here⟩)

/- Whatever is stored under its names, and however often one occurs, a view keeps all shapes. -/
theorem layoutKeeps (opened : Opened r view v) (all : String → Option Shape) :
    v.Leaves (Registry.HasShapes all) fun _ => () := by
  induction opened with
  | base name => exact Registry.layoutKeeps name all
  | range above fits word ih => exact (Range.accessLeaves ih).toLayout
  | @blocks pairs b each made ih =>
    refine Blocks.layoutLeaves (blocksJoin each made) fun p member => ?_
    obtain ⟨q, there, rfl⟩ := List.mem_map.mp member
    exact ih q there

theorem separateParts (grounded : Grounded r (.blocks (pairs.map Prod.fst)))
    (each : ∀ q ∈ pairs, Opened r q.1 q.2)
    (lawful : ∀ q ∈ pairs,
      q.2.Lawful (Registry.HasShapes r.shapes) (q.1.elements r).size q.1.elements) :
    Part.Separate (Registry.HasShapes r.shapes) (pairs.map (asPart r)) where
  reaches p member := by
    obtain ⟨q, there, rfl⟩ := List.mem_map.mp member
    exact (lawful q there).reaches
  apart := by
    have apart := List.pairwise_map.mp (onceAll grounded.once).2
    refine List.pairwise_map.mpr (apart.imp_of_mem fun {q q'} here there other => ⟨?_, ?_⟩)
    · exact layoutLeaves (each q here) (grounded.part (List.mem_map_of_mem here))
        fun name own s b => elementsStore (other name own) b s
    · exact layoutLeaves (each q' there) (grounded.part (List.mem_map_of_mem there))
        fun name own s b => elementsStore (fun shared => other name shared own) b s

theorem layoutLawful (opened : Opened r view v) (grounded : view.Grounded r) :
    v.Lawful (Registry.HasShapes r.shapes) (view.elements r).size view.elements ∧
      (view.elements r).size < Index.limit := by
  induction opened with
  | base name =>
    obtain ⟨sh, there, sized, small⟩ := grounded.base
    rw [sized]
    exact ⟨Registry.layoutLawful there small, small⟩
  | @range parent p first length above fits word ih =>
    obtain ⟨lawful, -⟩ := ih grounded.parent
    obtain ⟨within, sized⟩ := rangeFits above fits
    have small : length < Index.limit := by omega
    rw [sized]
    exact ⟨(Range.accessLawful (r := ⟨p, first, length⟩) lawful.toLawful within word).toLayout small,
      small⟩
  | @blocks pairs b each made ih =>
    have joins := blocksJoin each made
    have separate := separateParts grounded each fun q member =>
      (ih q member (grounded.part (List.mem_map_of_mem member))).1
    have lawful := Blocks.layoutLawful joins separate
    have shown : (Part.joined · (pairs.map (asPart r))) = elements (.blocks (pairs.map Prod.fst)) :=
      funext (joinedParts pairs)
    rw [shown, totalParts] at lawful
    exact ⟨lawful, totalParts (r := r) pairs ▸ joins.word⟩

end Opened

def twoBases : Registry Float :=
  ⟨[("left", .contiguous (.ofArray #[1, 2])), ("right", .column ⟨#[3, 4]⟩)]⟩

def tailJoined : View := .blocks [.range (.base "left") 1 1, .base "right"]

def tailOpened : Layout (Registry Float) Float :=
  Blocks.layout
    ⟨[(Range.mk (Registry.layout "left") 1 1).layout, Registry.layout "right"], [0, 1, 3]⟩

theorem opensTail : tailJoined.openIn twoBases = .ok tailOpened := rfl

theorem groundedTail : tailJoined.Grounded twoBases where
  bases name member := by
    have own : name = "left" ∨ name = "right" := by
      simpa [tailJoined, names, namesAll] using member
    rcases own with rfl | rfl
    · exact ⟨.contiguous (.ofArray #[1, 2]), rfl, by decide⟩
    · exact ⟨.column ⟨#[3, 4]⟩, rfl, by decide⟩
  once := by decide

theorem showsTail : Shows (tailOpened.cells twoBases) :=
  ⟨tailJoined, twoBases, twoBases, tailOpened, rfl, rfl, rfl⟩

theorem showsLeft : Shows ((Registry.layout "left").cells twoBases) :=
  ⟨.base "left", twoBases, twoBases, Registry.layout "left", rfl, rfl, rfl⟩

end SignalVector.View
