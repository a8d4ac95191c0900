import SignalVector.Proofs.Lawful
import SignalVector.Proofs.Leaving
import SignalVector.Storage.Registry

/-! The vectors that hold elements themselves are lawful, alone and under a name in a registry. None
of their changes gives a base vector another size or other limits, or reaches another name. -/
namespace SignalVector

open Update

variable {T : Type}

/-- What no operation changes of a base vector: whether it has a slice, its size and its limits. -/
structure Shape where
  sliced : Bool
  size : Nat
  bounds : Bounds

namespace Contiguous

def shape (c : Contiguous T) : Shape := ⟨true, c.values.size, c.bounds⟩

def HasShape (sh : Shape) (c : Contiguous T) : Prop := c.shape = sh

variable {sh : Shape}

theorem sizeOfShape {c : Contiguous T} (h : c.HasShape sh) : c.values.size = sh.size :=
  congrArg Shape.size h

theorem modifyKeepsShape {c : Contiguous T} (h : c.HasShape sh) (index : Nat) (f : T → T) :
    HasShape sh { c with values := c.values.modify index f } := by
  simpa [HasShape, shape] using h

theorem accessLawful :
    (access : Access (Contiguous T) T).Lawful (HasShape sh) sh.size values where
  sized _ := sizeOfShape
  cells c _ := Cells.holdsOfArray c.values
  modify index f := by
    intro c hc
    by_cases inside : index < c.values.size
    · have run : access.modify index f c = .ok () { c with values := c.values.modify index f } :=
        if_pos inside
      exact tracksOk run (Flat.modifyInside f inside) (modifyKeepsShape hc index f)
    · have run : access.modify index f c = .error (.refused (.outOfRange index c.values.size)) c :=
        if_neg inside
      exact tracksError run (Flat.modifyOutside f (Nat.not_lt.mp inside)) hc
  slots c hc slots found := by
    cases found
    refine ⟨rfl, fun values => ⟨?_, rfl⟩⟩
    simpa [HasShape, shape] using hc

theorem layoutLawful [Zero T] [Add T] [Mul T] :
    (layout : Layout (Contiguous T) T).Lawful (HasShape sh) sh.size values where
  toLawful := accessLawful
  toArray _ _ := rfl
  copyInto c _ := by
    funext target
    by_cases same : c.values.size = target.size
    · refine Eq.trans ?_ (Flat.combineFits same).symm
      simp only [layout, Contiguous.copyInto, getBind, checkSizeSame same, okBind, Buffer.overwrite,
        if_pos same, Flat.copied same]
    · refine Eq.trans ?_ (Flat.combineMisfit same).symm
      simp only [layout, Contiguous.copyInto, getBind, checkSizeOther same, errorBind]
  scaleAndAddInto scale c _ := by
    funext target
    by_cases same : c.values.size = target.size
    · refine Eq.trans ?_ (Flat.combineFits same).symm
      simp only [layout, Contiguous.scaleAndAddInto, getBind, checkSizeSame same, okBind,
        ← Cells.combineFull _ same]
      rfl
    · refine Eq.trans ?_ (Flat.combineMisfit same).symm
      simp only [layout, Contiguous.scaleAndAddInto, getBind, checkSizeOther same, errorBind]
  assign := accessLawful.reaches.assignTracks
  clear := accessLawful.reaches.clearTracks
  accumulate operands same readable := by
    have step : ∀ i < sh.size, ∀ sum : T, Tracks (HasShape sh) values
        (modify fun c => { c with values := c.values.modify i (· + sum) })
        (Flat.modify i (· + sum)) := by
      intro i inside sum c hc
      have there : i < c.values.size := (sizeOfShape hc).symm ▸ inside
      exact tracksOk (a := ()) rfl (Flat.modifyInside _ there) (modifyKeepsShape hc i (· + sum))
    intro c hc
    refine tracksCongr ?_ rfl (accumulateInTurn (fun _ => sizeOfShape) same readable step c hc)
    simp only [layout, Contiguous.accumulate, getBind, sizeOfShape hc, checkSizeSame same.symm, okBind]

theorem accessLeaves : (access : Access (Contiguous T) T).Leaves (HasShape sh) shape where
  modify index f := by
    intro c hc
    have kept := modifyKeepsShape hc index f
    simp only [access]
    split
    · exact ⟨kept, kept.trans hc.symm⟩
    · exact ⟨hc, rfl⟩
  slots c hc slots found values := by
    cases found
    have kept : HasShape sh { c with values := values.toArray } := by
      simpa [HasShape, shape] using hc
    exact ⟨kept, kept.trans hc.symm⟩

theorem layoutLeaves [Zero T] [Add T] [Mul T] :
    (layout : Layout (Contiguous T) T).Leaves (HasShape sh) shape where
  toLeaves := accessLeaves
  assign := accessLeaves.assign
  clear := accessLeaves.clear
  accumulate operands := by
    refine leavesGet fun c hc => leavesLiftAt hc fun _ _ => ?_
    refine leavesForM _ (fun i _ => leavesBind (leavesLift _) fun sum => ?_) c hc
    intro c hc
    have kept := modifyKeepsShape hc i (· + sum)
    exact ⟨kept, kept.trans hc.symm⟩

end Contiguous

namespace Column

def shape (c : Column T) : Shape := ⟨false, c.entries.size, .unbounded⟩

def HasShape (sh : Shape) (c : Column T) : Prop := c.shape = sh

variable {sh : Shape}

theorem sizeOfShape {c : Column T} (h : c.HasShape sh) : c.entries.size = sh.size :=
  congrArg Shape.size h

theorem modifyKeepsShape {c : Column T} (h : c.HasShape sh) (index : Nat) (f : T → T) :
    HasShape sh ⟨c.entries.modify index f⟩ := by
  simpa [HasShape, shape] using h

theorem entryInside {c : Column T} {index : Nat} (inside : index < c.entries.size) :
    c.entry index = .ok c.entries[index] := by
  simp only [entry, checkIndexInside inside, Array.getElem?_eq_getElem inside]
  rfl

theorem entryOutside {c : Column T} {index : Nat} (outside : c.entries.size ≤ index) :
    c.entry index = .error (.refused (.outOfRange index c.entries.size)) := by
  simp only [entry, checkIndexOutside outside]
  rfl

theorem modifyInside {c : Column T} {index : Nat} (inside : index < c.entries.size) (f : T → T) :
    access.modify index f c = .ok () ⟨c.entries.modify index f⟩ := by
  simp only [access, entryInside inside]

theorem modifyOutside {c : Column T} {index : Nat} (outside : c.entries.size ≤ index) (f : T → T) :
    access.modify index f c = .error (.refused (.outOfRange index c.entries.size)) c := by
  simp only [access, entryOutside outside]

theorem cellsHold (c : Column T) : (access.cells c).Holds c.entries where
  size := rfl
  get i := by
    rcases Nat.lt_or_ge i c.entries.size with inside | outside
    · exact (entryInside inside).trans (Cells.readSliceInside inside).symm
    · exact (entryOutside outside).trans (Cells.readSliceOutside outside).symm
  contiguous _ h := by cases h

theorem accessLawful : (access : Access (Column T) T).Lawful (HasShape sh) sh.size entries where
  sized _ := sizeOfShape
  cells c _ := cellsHold c
  modify index f := by
    intro c hc
    by_cases inside : index < c.entries.size
    · exact tracksOk (modifyInside inside f) (Flat.modifyInside f inside)
        (modifyKeepsShape hc index f)
    · have outside := Nat.not_lt.mp inside
      exact tracksError (modifyOutside outside f) (Flat.modifyOutside f outside) hc
  slots _ _ _ found := by cases found

theorem accessLeaves : (access : Access (Column T) T).Leaves (HasShape sh) shape where
  modify index f := by
    intro c hc
    by_cases inside : index < c.entries.size
    · have kept := modifyKeepsShape hc index f
      rw [modifyInside inside f]
      exact ⟨kept, kept.trans hc.symm⟩
    · rw [modifyOutside (Nat.not_lt.mp inside) f]
      exact ⟨hc, rfl⟩
  slots _ _ _ found := by cases found

end Column

namespace Base

def shape : Base T → Shape
  | contiguous c => c.shape
  | column c => c.shape

def HasShape (sh : Shape) (b : Base T) : Prop := b.shape = sh

def values : Base T → Array T
  | contiguous c => c.values
  | column c => c.entries

variable {sh : Shape}

theorem sizeOfShape {b : Base T} (h : b.HasShape sh) : b.values.size = sh.size := by
  cases b with
  | contiguous c => exact Contiguous.sizeOfShape h
  | column c => exact Column.sizeOfShape h

theorem decided {b b' : Base T} (shape : b.shape = b'.shape) (values : b.values = b'.values) :
    b = b' := by
  cases b with
  | contiguous c =>
    cases b' with
    | contiguous c' =>
      have limits : c.bounds = c'.bounds := congrArg Shape.bounds shape
      cases c
      cases c'
      cases values
      cases limits
      rfl
    | column c' => exact nomatch (congrArg Shape.sliced shape : true = false)
  | column c =>
    cases b' with
    | contiguous c' => exact nomatch (congrArg Shape.sliced shape : false = true)
    | column c' => exact congrArg (fun entries => Base.column ⟨entries⟩) values

theorem cellsHold [Zero T] [Add T] [Mul T] (b : Base T) : (layout.cells b).Holds b.values := by
  cases b with
  | contiguous c => exact Cells.holdsOfArray c.values
  | column c => exact Column.cellsHold c

theorem modifyOutside [Zero T] [Add T] [Mul T] {b : Base T} {index : Nat}
    (outside : b.values.size ≤ index) (f : T → T) :
    layout.modify index f b = .error (.refused (.outOfRange index b.values.size)) b := by
  cases b with
  | contiguous c =>
    have run : Contiguous.layout.modify index f c =
        .error (.refused (.outOfRange index c.values.size)) c := if_neg (Nat.not_lt.mpr outside)
    simp only [layout, update, run, wrap, values]
  | column c =>
    have run : Column.layout.modify index f c =
        .error (.refused (.outOfRange index c.entries.size)) c := Column.modifyOutside outside f
    simp only [layout, update, run, wrap, values]

theorem assignMisfit [Zero T] [Add T] [Mul T] {b : Base T} {values : Array T}
    (other : b.values.size ≠ values.size) :
    layout.assign values b =
      .error (.refused (.sizeMismatch b.values.size values.size)) b := by
  cases b with
  | contiguous c =>
    have run : Contiguous.layout.assign values c =
        .error (.refused (.sizeMismatch c.values.size values.size)) c :=
      Contiguous.access.assignMisfit rfl other
    simp only [layout, update, run, wrap, Base.values]
  | column c =>
    have run : Column.layout.assign values c =
        .error (.refused (.sizeMismatch c.entries.size values.size)) c :=
      Column.access.assignMisfit rfl other
    simp only [layout, update, run, wrap, Base.values]

theorem tracksUpdate {u : Update (Contiguous T) Unit} {u' : Update (Column T) Unit}
    {f : Update (Array T) Unit} (slice : Tracks (Contiguous.HasShape sh) Contiguous.values u f)
    (column : Tracks (Column.HasShape sh) Column.entries u' f) :
    Tracks (HasShape sh) values (update u u') f := by
  intro b hb
  cases b with
  | contiguous c =>
    obtain ⟨image, kept⟩ := slice c hb
    simp only [wrap, update] at image ⊢
    cases run : u c with
    | ok a c' => rw [run] at image kept; exact ⟨image, kept⟩
    | error e c' => rw [run] at image kept; exact ⟨image, kept⟩
  | column c =>
    obtain ⟨image, kept⟩ := column c hb
    simp only [wrap, update] at image ⊢
    cases run : u' c with
    | ok a c' => rw [run] at image kept; exact ⟨image, kept⟩
    | error e c' => rw [run] at image kept; exact ⟨image, kept⟩

theorem layoutLawful [Zero T] [Add T] [Mul T] (small : sh.size < Index.limit) :
    (layout : Layout (Base T) T).Lawful (HasShape sh) sh.size values := by
  have slice : (Contiguous.layout : Layout (Contiguous T) T).Lawful _ sh.size _ :=
    Contiguous.layoutLawful
  have column : (Column.layout : Layout (Column T) T).Lawful _ sh.size _ :=
    Column.accessLawful.toLayout small
  exact {
    sized := fun _ => sizeOfShape
    cells := fun b _ => cellsHold b
    modify := fun index f => tracksUpdate (slice.modify index f) (column.modify index f)
    slots := by
      rintro (c | c) hb slots found
      · cases found
        exact slice.slots c hb _ rfl
      · cases found
    toArray := by
      rintro (c | c) hb
      · exact slice.toArray c hb
      · exact column.toArray c hb
    copyInto := by
      rintro (c | c) hb
      · exact slice.copyInto c hb
      · exact column.copyInto c hb
    scaleAndAddInto := by
      rintro scale (c | c) hb
      · exact slice.scaleAndAddInto scale c hb
      · exact column.scaleAndAddInto scale c hb
    assign := fun values => tracksUpdate (slice.assign values) (column.assign values)
    clear := tracksUpdate slice.clear column.clear
    accumulate := fun operands same readable => tracksUpdate
      (slice.accumulate operands same readable) (column.accumulate operands same readable) }

theorem leavesUpdate {u : Update (Contiguous T) Unit} {u' : Update (Column T) Unit}
    (slice : Update.Leaves (Contiguous.HasShape sh) Contiguous.shape u)
    (column : Update.Leaves (Column.HasShape sh) Column.shape u') :
    Update.Leaves (HasShape sh) shape (update u u') := by
  intro b hb
  cases b with
  | contiguous c =>
    have kept := slice c hb
    simp only [wrap, update]
    cases run : u c with
    | ok a c' => rw [run] at kept; exact kept
    | error e c' => rw [run] at kept; exact kept
  | column c =>
    have kept := column c hb
    simp only [wrap, update]
    cases run : u' c with
    | ok a c' => rw [run] at kept; exact kept
    | error e c' => rw [run] at kept; exact kept

theorem layoutLeaves [Zero T] [Add T] [Mul T] :
    (layout : Layout (Base T) T).Leaves (HasShape sh) shape := by
  have slice : (Contiguous.layout : Layout (Contiguous T) T).Leaves (Contiguous.HasShape sh) _ :=
    Contiguous.layoutLeaves
  have column : (Column.layout : Layout (Column T) T).Leaves (Column.HasShape sh) _ :=
    Column.accessLeaves.toLayout
  exact {
    modify := fun index f => leavesUpdate (slice.modify index f) (column.modify index f)
    slots := by
      rintro (c | c) hb slots found values
      · cases found
        exact slice.slots c hb _ rfl values
      · cases found
    assign := fun values => leavesUpdate (slice.assign values) (column.assign values)
    clear := leavesUpdate slice.clear column.clear
    accumulate := fun operands =>
      leavesUpdate (slice.accumulate operands) (column.accumulate operands) }

end Base

namespace Registry

def shapes (r : Registry T) (name : String) : Option Shape := (r.find? name).map Base.shape

theorem sizeOfBase (r : Registry T) (name : String) :
    (r.base name).values.size = ((r.shapes name).map Shape.size).getD 0 := by
  simp only [base, shapes]
  cases r.find? name with
  | none => rfl
  | some b => exact Base.sizeOfShape rfl

theorem sizeOfShapes {r s : Registry T} (same : s.shapes = r.shapes) (name : String) :
    (s.base name).values.size = (r.base name).values.size := by
  rw [sizeOfBase s, sizeOfBase r, same]

def HasShapes (shapes : String → Option Shape) (r : Registry T) : Prop := r.shapes = shapes

theorem lookupReplace {name : String} {b : Base T} {entries : List (String × Base T)} {old : Base T}
    (found : entries.lookup name = some old) : (replaceIn name b entries).lookup name = some b := by
  induction entries with
  | nil => contradiction
  | cons entry entries ih =>
    obtain ⟨key, kept⟩ := entry
    by_cases same : name = key
    · simp [replaceIn, same]
    · simp only [replaceIn, if_neg same, List.lookup_cons, beq_false_of_ne same] at found ⊢
      exact ih found

theorem lookupReplaceOther {name other : String} (different : other ≠ name) (b : Base T)
    (entries : List (String × Base T)) :
    (replaceIn name b entries).lookup other = entries.lookup other := by
  induction entries with
  | nil => rfl
  | cons entry entries ih =>
    obtain ⟨key, kept⟩ := entry
    by_cases same : name = key
    · subst same
      simp [replaceIn, List.lookup_cons, beq_false_of_ne different]
    · simp [replaceIn, same, List.lookup_cons, ih]

theorem replaceTwice (name : String) (b c : Base T) (entries : List (String × Base T)) :
    replaceIn name b (replaceIn name c entries) = replaceIn name b entries := by
  induction entries with
  | nil => rfl
  | cons entry entries ih =>
    obtain ⟨key, kept⟩ := entry
    by_cases same : name = key
    · simp [replaceIn, same]
    · simp [replaceIn, same, ih]

theorem replaceSame {name : String} {b : Base T} {entries : List (String × Base T)}
    (found : entries.lookup name = some b) : replaceIn name b entries = entries := by
  induction entries with
  | nil => rfl
  | cons entry entries ih =>
    obtain ⟨key, kept⟩ := entry
    by_cases same : name = key
    · subst same
      simp only [List.lookup_cons_self, Option.some.injEq] at found
      simp [replaceIn, found]
    · simp only [replaceIn, if_neg same, List.lookup_cons, beq_false_of_ne same] at found ⊢
      rw [ih found]

theorem replaceMissing {name : String} {entries : List (String × Base T)}
    (missing : entries.lookup name = none) (b : Base T) : replaceIn name b entries = entries := by
  induction entries with
  | nil => rfl
  | cons entry entries ih =>
    obtain ⟨key, kept⟩ := entry
    by_cases same : name = key
    · simp [same] at missing
    · simp only [replaceIn, if_neg same, List.lookup_cons, beq_false_of_ne same] at missing ⊢
      rw [ih missing]

theorem findStore {name : String} {b old : Base T} {r : Registry T}
    (found : r.find? name = some old) : (r.store name b).find? name = some b := lookupReplace found

theorem baseFound {name : String} {b : Base T} {r : Registry T} (found : r.find? name = some b) :
    r.base name = b := by rw [base, found]; rfl

theorem shapesStore {name : String} {b old : Base T} {r : Registry T}
    (found : r.find? name = some old) (same : b.shape = old.shape) :
    (r.store name b).shapes = r.shapes := by
  funext other
  by_cases here : other = name
  · subst here
    simp only [shapes, findStore found, found, Option.map_some, same]
  · exact congrArg (Option.map Base.shape) (lookupReplaceOther here b r.entries)

def valuesOf (name : String) (r : Registry T) : Array T := (r.base name).values

section Named

variable {name : String} {sh : Shape} {all : String → Option Shape} (there : all name = some sh)

include there

theorem findNamed {r : Registry T} (h : r.HasShapes all) :
    ∃ b, r.find? name = some b ∧ b.HasShape sh := by
  have here : r.shapes name = some sh := by rw [h, there]
  exact Option.map_eq_some_iff.mp here

theorem enterNamed (r : Registry T) (h : r.HasShapes all) : (r.base name).HasShape sh := by
  obtain ⟨b, found, same⟩ := findNamed there h
  exact (baseFound found).symm ▸ same

theorem leaveNamed (r : Registry T) (b : Base T) (h : r.HasShapes all) (hb : b.HasShape sh) :
    (r.store name b).HasShapes all ∧ (r.store name b).base name = b := by
  obtain ⟨old, found, same⟩ := findNamed there h
  exact ⟨(shapesStore found (hb.trans same.symm)).trans h, baseFound (findStore found)⟩

theorem stopsNamed {r : Registry T} (h : r.HasShapes all) {u : Update (Base T) Unit} {e : Failure}
    (stops : ∀ b : Base T, b.HasShape sh → u b = .error e b) :
    u.focus (·.base name) (store name) .empty r = .error e r := by
  obtain ⟨b, found, same⟩ := findNamed there h
  have back : (r.store name .empty).store name b = r :=
    congrArg Registry.mk ((replaceTwice name b .empty r.entries).trans (replaceSame found))
  simp only [Update.focus, baseFound found, wrap, stops b same, back]

variable [Zero T] [Add T] [Mul T]

theorem layoutLawful (small : sh.size < Index.limit) :
    (layout name : Layout (Registry T) T).Lawful (HasShapes all) sh.size (valuesOf name) :=
  (Base.layoutLawful small).focus (enterNamed there) (leaveNamed there)
    fun r b => congrArg Registry.mk (replaceTwice name b .empty r.entries)

theorem modifyOutside {r : Registry T} (h : r.HasShapes all) {index : Nat}
    (outside : sh.size ≤ index) (f : T → T) :
    (layout name).modify index f r = .error (.refused (.outOfRange index sh.size)) r := by
  refine stopsNamed there h fun b same => ?_
  have sized := Base.sizeOfShape same
  rw [← sized]
  exact Base.modifyOutside (sized.symm ▸ outside) f

theorem assignMisfit {r : Registry T} (h : r.HasShapes all) {values : Array T}
    (other : sh.size ≠ values.size) :
    (layout name).assign values r = .error (.refused (.sizeMismatch sh.size values.size)) r := by
  refine stopsNamed there h fun b same => ?_
  have sized := Base.sizeOfShape same
  rw [← sized]
  exact Base.assignMisfit (sized.symm ▸ other)

theorem layoutLeaves {β : Type} {kept : Registry T → β}
    (apart : ∀ r b, kept (store name b r) = kept r) :
    (layout name : Layout (Registry T) T).Leaves (HasShapes all) kept :=
  Base.layoutLeaves.focus (enterNamed there) (fun r b h hb => (leaveNamed there r b h hb).1)
    (fun r b => congrArg Registry.mk (replaceTwice name b .empty r.entries)) apart

end Named

/- Under a name that holds nothing the vector stores nothing, so no shape depends on the name. -/
theorem layoutKeeps [Zero T] [Add T] [Mul T] (name : String) (all : String → Option Shape) :
    (layout name : Layout (Registry T) T).Leaves (HasShapes all) fun _ => () := by
  cases there : all name with
  | some sh => exact layoutLeaves there fun _ _ => rfl
  | none =>
    have missing : ∀ r : Registry T, r.HasShapes all → r.find? name = none := by
      intro r h
      have here : r.shapes name = none := by rw [h, there]
      exact Option.map_eq_none_iff.mp here
    have whole : (Base.layout : Layout (Base T) T).Leaves (Base.HasShape (Base.empty : Base T).shape) _ :=
      Base.layoutLeaves
    refine whole.focus (fun r h => ?_) (fun r b h _ => ?_)
      (fun r b => congrArg Registry.mk (replaceTwice name b .empty r.entries)) fun _ _ => rfl
    · rw [base, missing r h]
      rfl
    · rw [store, replaceMissing (missing r h)]
      exact h

end Registry

end SignalVector
