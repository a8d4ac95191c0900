import SignalVector.Proofs.Addressing
import SignalVector.Proofs.Defaults

/-! The operations that a layout puts in the place of defaults. The slice and the joined blocks have
such operations; call by call they give the result of the default and leave the same behind. -/
namespace SignalVector

open Update

variable {σ τ T β : Type}

structure Layout.Agrees (v w : Layout σ T) (inv : σ → Prop) (shown : σ → τ) : Prop where
  toArray : ∀ s, inv s → v.toArray s = w.toArray s
  copyInto : ∀ s, inv s → v.copyInto s = w.copyInto s
  scaleAndAddInto : ∀ scale s, inv s → v.scaleAndAddInto scale s = w.scaleAndAddInto scale s
  assign : ∀ values, Alike inv shown (v.assign values) (w.assign values)
  clear : Alike inv shown v.clear w.clear
  addScaledAll : ∀ terms, Alike inv shown (v.addScaledAll terms) (w.addScaledAll terms)

namespace Layout.Agrees

variable {v w : Layout σ T} {inv : σ → Prop} {shown : σ → τ}

theorem known {known : σ → β} (h : v.Agrees w inv shown)
    (decides : ∀ s s', inv s → inv s' → shown s = shown s' → known s = known s') :
    v.Agrees w inv known := by
  have step : ∀ {u u' : Update σ Unit}, Alike inv shown u u' → Alike inv known u u' :=
    fun alike => alikeKnown alike fun s hs => decides _ _ (alike s hs).2.1 (alike s hs).2.2
  exact { h with
    assign := fun values => step (h.assign values)
    clear := step h.clear
    addScaledAll := fun terms => step (h.addScaledAll terms) }

theorem all {ι : Type} [Inhabited ι] {shown : ι → σ → τ} (h : ∀ i, v.Agrees w inv (shown i)) :
    v.Agrees w inv fun s i => shown i s := by
  have step : ∀ {u u' : Update σ Unit}, (∀ i, Alike inv (shown i) u u') →
      Alike inv (fun s i => shown i s) u u' := by
    intro u u' each
    refine alikeKnown (each default) fun s hs _ => funext fun i => ?_
    have ends := congrArg final (each i s hs).1
    rwa [finalWrap, finalWrap] at ends
  exact { h default with
    assign := fun values => step fun i => (h i).assign values
    clear := step fun i => (h i).clear
    addScaledAll := fun terms => step fun i => (h i).addScaledAll terms }

end Layout.Agrees

variable [Zero T] [Add T] [Mul T]

/- Where both are lawful only what the vector does not show needs an argument of its own. -/
theorem Layout.Lawful.agrees {v w : Layout σ T} {inv : σ → Prop} {size : Nat}
    {elements : σ → Array T} {kept : σ → β} (hv : v.Lawful inv size elements)
    (hw : w.Lawful inv size elements) (leftV : v.Leaves inv kept) (leftW : w.Leaves inv kept)
    (same : v.accumulate = w.accumulate) (sized : v.cells = w.cells) :
    v.Agrees w inv fun s => (elements s, kept s) where
  toArray s hs := (hv.toArray s hs).trans (hw.toArray s hs).symm
  copyInto s hs := (hv.copyInto s hs).trans (hw.copyInto s hs).symm
  scaleAndAddInto scale s hs :=
    (hv.scaleAndAddInto scale s hs).trans (hw.scaleAndAddInto scale s hs).symm
  assign values :=
    alikeLeft (tracksAlike (hv.assign values) (hw.assign values)) (leftV.assign values)
      (leftW.assign values)
  clear := alikeLeft (tracksAlike hv.clear hw.clear) leftV.clear leftW.clear
  addScaledAll terms s hs := by
    have equal : v.addScaledAll terms = w.addScaledAll terms := by
      simp only [Layout.addScaledAll, Layout.size, same, sized]
    exact ⟨by rw [equal], (leftV.addScaledAll terms s hs).1, (leftW.addScaledAll terms s hs).1⟩

namespace Contiguous

/- The pass over the slice skips the check of each index, which never fails; an operand that refuses
a read stops both passes at the same element. -/
theorem accumulateAlike (operands : Operands T) {n : Nat} (same : operands.size = n) :
    Alike (fun c : Contiguous T => c.values.size = n) id (accumulate operands)
      (access.accumulate operands) := by
  have step : ∀ i ∈ List.range n, Alike (fun c : Contiguous T => c.values.size = n) id
      (do let sum ← liftM (operands.sumAt i)
          modify fun c => { c with values := c.values.modify i (· + sum) })
      (do let sum ← liftM (operands.sumAt i)
          access.modify i (· + sum)) := by
    intro i member c hc
    cases operands.sumAt i with
    | error e => exact ⟨rfl, hc, hc⟩
    | ok sum =>
      have inside : i < c.values.size := hc.symm ▸ List.mem_range.mp member
      have run : access.modify i (· + sum) c =
          .ok () { c with values := c.values.modify i (· + sum) } := if_pos inside
      have kept : (c.values.modify i (· + sum)).size = n := (Array.size_modify ..).trans hc
      simp only [wrap, okBind, run]
      exact ⟨rfl, kept, kept⟩
  intro c hc
  have loop := alikeForM _ step c hc
  have sized : (access.cells c).size = n := hc
  simp only [wrap, accumulate, Access.accumulate, getBind, hc, sized, checkSizeSame same.symm,
    okBind] at loop ⊢
  exact loop

theorem layoutAgrees : Layout.Agrees (layout : Layout (Contiguous T) T) access.toLayout
    (fun c => c.values.size < Index.limit) id := by
  have default : ∀ {c : Contiguous T}, c.values.size < Index.limit →
      (access.toLayout : Layout (Contiguous T) T).Lawful (HasShape c.shape) c.values.size values :=
    fun small => accessLawful.toLayout small
  have alike : ∀ u : Update (Contiguous T) Unit,
      (∀ sh, Update.Leaves (HasShape sh) shape u) →
      Alike (fun c : Contiguous T => c.values.size < Index.limit) id u u := by
    intro u leaves c small
    have kept := Nat.le_of_eq (sizeOfShape (leaves c.shape c rfl).1)
    exact ⟨rfl, Nat.lt_of_le_of_lt kept small, Nat.lt_of_le_of_lt kept small⟩
  exact {
    toArray := fun c small => ((default small).toArray c rfl).symm
    copyInto := fun c small => (layoutLawful.copyInto c rfl).trans ((default small).copyInto c rfl).symm
    scaleAndAddInto := fun scale c small =>
      (layoutLawful.scaleAndAddInto scale c rfl).trans ((default small).scaleAndAddInto scale c rfl).symm
    assign := fun values => alike _ fun _ => accessLeaves.assign values
    clear := alike _ fun _ => accessLeaves.clear
    addScaledAll := fun terms c small => by
      by_cases fits : ∀ t ∈ terms, t.2.size = c.values.size
      · have alike := accumulateAlike ⟨c.values.size, terms, fits⟩ rfl c rfl
        simp only [wrap, Layout.addScaledFits (v := layout) (s := c) rfl fits,
          Layout.addScaledFits (v := access.toLayout) (s := c) rfl fits]
        exact ⟨alike.1, Nat.lt_of_le_of_lt (Nat.le_of_eq alike.2.1) small,
          Nat.lt_of_le_of_lt (Nat.le_of_eq alike.2.2) small⟩
      · obtain ⟨t, found⟩ := Operands.misfit fits
        simp only [wrap, Layout.addScaledMisfit (v := layout) (s := c) rfl found,
          Layout.addScaledMisfit (v := access.toLayout) (s := c) rfl found]
        exact ⟨rfl, small, small⟩ }

end Contiguous

theorem Blocks.layoutAgrees {inv : σ → Prop} {parts : List (Part σ T)} {b : Blocks σ T} {kept : σ → β}
    (joins : b.Joins parts) (separate : Part.Separate inv parts)
    (apart : ∀ p ∈ parts, p.layout.Leaves inv kept) :
    b.layout.Agrees b.access.toLayout inv fun s => (Part.joined s parts, kept s) :=
  (layoutLawful joins separate).agrees ((accessLawful joins separate).toLayout joins.word)
    (layoutLeaves joins apart) (accessLeaves joins apart).toLayout rfl rfl

namespace View

open Registry (HasShapes cell)

variable {r : Registry T} {parts : List View} {b : Blocks (Registry T) T}

/- A slot that the joined blocks show is decided by the elements, and any other is left. -/
theorem blocksAgree (opened : openBlocks? r (.blocks parts) = .ok (some b))
    (grounded : Grounded r (.blocks parts)) :
    b.layout.Agrees b.access.toLayout (HasShapes r.shapes) fun s p => cell p s := by
  obtain ⟨pairs, b', rfl, each, made, same⟩ := openedParts opened
  cases same
  have each : ∀ q ∈ pairs, Opened r q.1 q.2 := fun q member => openedSource (each q member)
  have joins := blocksJoin each made
  have parted : ∀ q ∈ pairs, q.1.Grounded r :=
    fun q member => grounded.part (List.mem_map_of_mem member)
  have separate := separateParts grounded each fun q member =>
    (layoutLawful (each q member) (parted q member)).1
  refine Layout.Agrees.all fun p => ?_
  by_cases shown : p ∈ places r (.blocks (pairs.map Prod.fst))
  · have nothing : ∀ q ∈ pairs.map (asPart r), q.layout.Leaves (HasShapes r.shapes) fun _ => () := by
      intro q member
      obtain ⟨q, there, rfl⟩ := List.mem_map.mp member
      exact layoutLeaves (each q there) (parted q there) fun _ _ _ _ => rfl
    refine (Blocks.layoutAgrees joins separate nothing).known fun s s' hs hs' same => ?_
    have joined : Part.joined s (pairs.map (asPart r)) = Part.joined s' (pairs.map (asPart r)) :=
      congrArg Prod.fst same
    rw [joinedParts, joinedParts] at joined
    exact @shownSame _ _ _ _ hs hs' (.blocks (pairs.map Prod.fst)) joined _ shown
  · have left : ∀ q ∈ pairs.map (asPart r), q.layout.Leaves (HasShapes r.shapes) (cell p) := by
      intro q member
      obtain ⟨q, there, rfl⟩ := List.mem_map.mp member
      refine leavesOtherPlaces (each q there) (parted q there) fun mine => shown ?_
      exact memPlacesAll.mpr ⟨q.1, List.mem_map_of_mem there, mine⟩
    exact (Blocks.layoutAgrees joins separate left).known fun s s' _ _ same =>
      congrArg Prod.snd same

end View

/- Joined blocks come twice: over any layouts that change what they show like a list, with whatever
all of them leave alone, and over the views of a registry, where every slot is compared. -/
theorem derivedDenote [Magnitude T] :
    (∀ (σ : Type) (a : Access σ T) (inv : σ → Prop) (size : Nat), a.Contract inv size →
      size < Index.limit → a.toLayout.Denotes inv size fun s => (a.cells s).contents) ∧
    Layout.Agrees (Contiguous.layout : Layout (Contiguous T) T) Contiguous.access.toLayout
      (fun c => c.values.size < Index.limit) id ∧
    (∀ (σ β : Type) (inv : σ → Prop) (parts : List (Part σ T)) (b : Blocks σ T) (kept : σ → β)
      (s : σ), inv s → Blocks.make (parts.map Part.layout) s = .ok b → Part.Separate inv parts →
      (∀ p ∈ parts, p.layout.Leaves inv kept) →
      b.layout.Agrees b.access.toLayout inv fun s => (Part.joined s parts, kept s)) ∧
    ∀ (r : Registry T) (parts : List View) (b : Blocks (Registry T) T),
      View.openBlocks? r (.blocks parts) = .ok (some b) → View.Grounded r (.blocks parts) →
      b.layout.Agrees b.access.toLayout (Registry.HasShapes r.shapes)
        fun s p => Registry.cell p s := by
  refine ⟨fun σ a inv size contract small => contract.reaches.denotes contract.ends small,
    Contiguous.layoutAgrees, fun σ β inv parts b kept s hs made separate apart => ?_,
    fun r parts b => View.blocksAgree⟩
  have joins := Blocks.madeJoins made fun p member =>
    (separate.reaches p member).sizeAt hs
  exact Blocks.layoutAgrees joins separate apart

def pair : Shape := ⟨false, 2, .unbounded⟩

def pairPart : Part (Column Float) Float := ⟨Column.access.toLayout, 2, Column.entries⟩

theorem derivedDenotePair :
    Column.access.toLayout.Denotes (Column.HasShape (T := Float) pair) 2
        (fun c => (Column.access.cells c).contents) ∧
      Contiguous.layout.toArray (Contiguous.ofArray #[(1 : Float), 2]) =
        Contiguous.access.toLayout.toArray (Contiguous.ofArray #[(1 : Float), 2]) ∧
      (Blocks.mk [pairPart.layout] [0, 2]).layout.Agrees
        (Blocks.mk [pairPart.layout] [0, 2]).access.toLayout (Column.HasShape pair)
        (fun c => (Part.joined c [pairPart], c.shape)) ∧
      ∃ b : Blocks (Registry Float) Float, b.layout = View.tailOpened ∧
        b.layout.Agrees b.access.toLayout (Registry.HasShapes View.twoBases.shapes)
          fun s p => Registry.cell p s := by
  obtain ⟨denotes, sliced, joined, opened⟩ := derivedDenote (T := Float)
  have lawful : (Column.access : Access (Column Float) Float).Lawful (Column.HasShape pair) 2
      Column.entries := Column.accessLawful
  have separate : Part.Separate (Column.HasShape pair) [pairPart] :=
    { reaches := fun p member => by
        cases List.mem_singleton.mp member
        exact (lawful.toLayout (by decide)).reaches
      apart := List.pairwise_singleton _ _ }
  refine ⟨denotes _ _ _ _ lawful.contract (by decide), sliced.toArray _ (by decide), ?_,
    ⟨[(Range.mk (Registry.layout "left") 1 1).layout, Registry.layout "right"], [0, 1, 3]⟩, rfl,
    opened _ _ _ rfl View.groundedTail⟩
  refine joined _ _ _ _ _ _ (⟨#[1, 2]⟩ : Column Float) rfl rfl separate fun p member => ?_
  cases List.mem_singleton.mp member
  exact Column.accessLeaves.toLayout

end SignalVector
