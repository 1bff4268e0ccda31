import Orthotope.Proofs.Cube.Bulk
import Orthotope.Proofs.Store.Sources

/-!
# Missing elements through stacks of layers

A missing element of a cube has a value: that of the leaf under it, converted as the layers convert
elements (`Cube.missing`). With that value the raw and the nullable channel of any stack of views and
conversions agree (`Cube.agrees_elements`), since every layer keeps the agreement of what is beneath.
If the views fit, bulk writes come to single ones (`Cube.Fits.orderly_elements`), so that this also
tells what a bulk write of missing elements does.

Requests to cubes, new storage and changes of files lead from one state of the store to others
(`Store.Reaches`), and in all of them the storage of a leaf is as sound as when it was made. So the
channels agree in every state that is reached (`LeafSource.channels_agree`).
-/

namespace Orthotope

variable {k k₀ : Kind} {slot : Nat} {dims : List Dimension} {s t : Store} {null : k₀.Elem}
  {gapless : Bool}

/-! ## One state -/

/-- In a state, the raw and the nullable channel agree if a missing element counts as `missing`: they
read alike, elements that are not missing are written alike, and where a missing element is written,
alone or among others, the raw channel reads `missing`. `Same` says which states are not told apart. -/
structure Access.AgreesAt {σ α : Type} (Same : σ → σ → Prop) (missing : α) (a : Access σ α) (s : σ) :
    Prop where
  get : ∀ p, ((a.raw.get p).outcome s).1 = ((a.nullable.get p).outcome s).1.map (·.getD missing)
  read : ∀ p n, ((a.raw.read p n).run s).value =
    ((a.nullable.read p n).run s).value.map (·.getD missing)
  set : ∀ p x, ((a.nullable.set p (some x)).outcome s).1 = ((a.raw.set p x).outcome s).1 ∧
    Same ((a.nullable.set p (some x)).outcome s).2 ((a.raw.set p x).outcome s).2
  write : ∀ p xs, ((a.nullable.write p (xs.map some)).outcome s).1 = ((a.raw.write p xs).outcome s).1 ∧
    Same ((a.nullable.write p (xs.map some)).outcome s).2 ((a.raw.write p xs).outcome s).2
  erase : ∀ p t, (a.nullable.set p none).outcome s = (.ok (), t) →
    ((a.raw.get p).outcome t).1 = .ok missing
  eraseAll : ∀ p xs t, (a.nullable.write p xs).outcome s = (.ok (), t) → ∀ i : Nat, xs[i]? = some none →
    ((a.raw.get (p + i)).outcome t).1 = .ok missing

/-- In a state, reads from the nullable channel give the elements of the raw one, and none is missing. -/
structure Access.GaplessAt {σ α : Type} (a : Access σ α) (s : σ) : Prop where
  get : ∀ p, ((a.nullable.get p).outcome s).1 = ((a.raw.get p).outcome s).1.map some
  read : ∀ p n, ((a.nullable.read p n).run s).value = ((a.raw.read p n).run s).value.map some

/-! ## Stacks of layers -/

namespace Cube

/-- The value that a missing element reads as on the raw channel. -/
def missing (s : Store) : {k : Kind} → Cube k → k.Elem
  | k, leaf _ slot _ => ((s.leaf? k slot).map Leaf.missing).getD k.null
  | _, view _ inner _ _ => inner.missing s
  | _, @cast source _ inner target => source.convert target (inner.missing s)

variable {c : Cube k}

/-- The channels of a stack over a slot with sound storage agree. -/
theorem agrees_elements (hbottom : c.bottom = (k₀, slot, dims))
    (hs : s.Sound k₀ slot (shapeOf dims) null gapless) :
    c.elements.Agrees (Store.Alike k₀ slot (shapeOf dims) null gapless) (c.missing s) := by
  induction c with
  | leaf =>
    obtain ⟨rfl, rfl, rfl⟩ : _ ∧ _ ∧ _ := by simpa [bottom] using hbottom
    obtain ⟨leaf, hleaf, -, rfl, -⟩ := hs
    rw [missing, hleaf]
    exact Store.agrees_access ..
  | view serial inner dims transform ih => exact (ih hbottom).through _
  | cast serial inner target ih => exact (ih hbottom).convert target

/-- No element of a stack over a slot with gapless storage is missing. -/
theorem gapless_elements (hbottom : c.bottom = (k₀, slot, dims)) :
    c.elements.Gapless (Store.Alike k₀ slot (shapeOf dims) null true) := by
  induction c with
  | leaf =>
    obtain ⟨rfl, rfl, rfl⟩ : _ ∧ _ ∧ _ := by simpa [bottom] using hbottom
    exact Store.gapless_access ..
  | view serial inner dims transform ih => exact (ih hbottom).through _
  | cast serial inner target ih => exact (ih hbottom).convert target

theorem size_nullable (c : Cube k) : c.elements.nullable.size = c.size := by
  induction c with
  | leaf => rfl
  | view => rfl
  | cast serial inner target ih => exact ih

/-- Bulk writes to a stack of views that fit come to single ones, each of which changes one position. -/
theorem Fits.orderly_elements (h : c.Fits) (hbottom : c.bottom = (k₀, slot, dims)) :
    c.elements.Orderly (Store.Alike k₀ slot (shapeOf dims) null gapless) := by
  induction c with
  | leaf =>
    obtain ⟨rfl, rfl, rfl⟩ : _ ∧ _ ∧ _ := by simpa [bottom] using hbottom
    exact Store.orderly_access ..
  | view serial inner dims transform ih =>
    exact (ih h.1 hbottom).through h.2 (size_nullable inner)
  | cast serial inner target ih => exact (ih h hbottom).convert target

/-- Requests to a cube leave the lasting properties of the storage in every slot. -/
theorem keeps_has (c : Cube k) (slot : Nat) {P : Leaf k₀ → Files → Prop} (hP : Leaf.Lasting P) :
    c.elements.Keeps (Store.Has · k₀ slot P) := by
  induction c with
  | leaf => exact Store.keeps_access hP ..
  | view serial inner dims transform ih => exact ih.through _
  | cast serial inner target ih => exact ih.convert target

/-- Requests to a cube leave the storage in every slot sound. -/
theorem keeps_elements (c : Cube k) (slot : Nat) (shape : List Nat) (null : k₀.Elem) (gapless : Bool) :
    c.elements.Keeps (Store.Sound · k₀ slot shape null gapless) :=
  c.keeps_has slot (Leaf.lasting_sound shape null gapless)

end Cube

/-! ## States that are reached -/

/-- From one state of the store to another by requests to cubes, whatever they are, by making new storage
and by whatever is done to files, save that none is removed or made shorter. -/
inductive Store.Reaches (s : Store) : Store → Prop where
  | refl : Reaches s s
  | request {t : Store} {k : Kind} (before : Reaches s t) (c : Cube k) (r : Access.Request k.Elem) :
      Reaches s ((c.elements.answer r).run t).state
  | add {t : Store} {k : Kind} (before : Reaches s t) (content : Leaf k) : Reaches s (t.add content).2
  | files {t : Store} (before : Reaches s t) {files : Files} (grown : t.files.Grown files) :
      Reaches s { t with files }

/-- Lasting properties of storage stay. -/
theorem Store.Reaches.has {P : Leaf k₀ → Files → Prop} (h : s.Reaches t) (hP : Leaf.Lasting P)
    (hs : s.Has k₀ slot P) : t.Has k₀ slot P := by
  induction h with
  | refl => exact hs
  | request _ c r ih => exact (c.keeps_has slot hP).answer ih r
  | add _ content ih => exact ih.add content
  | files _ grown ih => exact ih.grown hP grown

/-- Storage stays sound. -/
theorem Store.Reaches.sound {shape : List Nat} (h : s.Reaches t)
    (hs : s.Sound k₀ slot shape null gapless) : t.Sound k₀ slot shape null gapless :=
  h.has (Leaf.lasting_sound shape null gapless) hs

namespace LeafSource

variable {c : Cube k}

/-- Over any leaf, through any stack of views and conversions and in any state that is reached, the raw
and the nullable channel agree. A missing element of the leaf counts as the null value of its
storage if that is sparse and as null otherwise. Over storage other than sparse storage and nested
lists no element is missing. -/
theorem channels_agree (source : LeafSource k₀) {w w' : Workspace}
    (hmake : source.make.run.run w = (.ok (.leaf k₀ slot dims), w')) (hreach : w'.store.Reaches s)
    (hlayered : Layered (.leaf k₀ slot dims) c) :
    (Cube.leaf k₀ slot dims).missing s = source.missing ∧
    c.elements.AgreesAt Store.Same (c.missing s) s ∧
    (source.gapless = true → c.elements.GaplessAt s) := by
  obtain ⟨_, _, hleaf, hsound⟩ := source.sound_make hmake
  cases hleaf
  have hs := hreach.sound hsound
  have hself : ∀ {s}, s.Sound k₀ slot (shapeOf dims) source.missing source.gapless →
      Store.Alike k₀ slot (shapeOf dims) source.missing source.gapless s s :=
    fun hs => ⟨⟨rfl, fun _ => rfl⟩, hs⟩
  have halike := hself hs
  obtain ⟨hfits, hbottom⟩ := hlayered.fits_and_bottom
  have hagrees := Cube.agrees_elements hbottom hs
  refine ⟨?_, ⟨fun p => ?get, fun p n => ?read, fun p x => ?set, fun p xs => ?write, fun p t => ?erase,
    fun p xs t => ?eraseAll⟩, fun hgapless => ?_⟩
  · obtain ⟨leaf, hleaf, -, hmissing, -⟩ := hs
    rw [Cube.missing, hleaf]
    exact hmissing
  case get => exact (hagrees.reads.get p s s halike).1.symm
  case read => exact (hagrees.reads.read p n s s halike).1.symm
  case set =>
    obtain ⟨hvalue, hstate, -⟩ := hagrees.writes.set p x s s halike
    exact ⟨hvalue, hstate⟩
  case write =>
    obtain ⟨hvalue, hstate, -⟩ := hagrees.writes.write p xs s s halike
    exact ⟨hvalue, hstate⟩
  case erase =>
    intro hset
    rw [hagrees.erase halike hset]
  case eraseAll =>
    intro hwrite i hi
    have hkeeps := c.keeps_elements slot (shapeOf dims) source.missing source.gapless
    exact hagrees.eraseAll (hfits.orderly_elements hbottom) hkeeps.nullable hself hs hwrite hi
  · rw [hgapless] at halike
    have hall : c.elements.Gapless (Store.Alike k₀ slot (shapeOf dims) source.missing true) :=
      Cube.gapless_elements hbottom
    exact ⟨fun p => (hall.get p s s halike).1.symm, fun p n => (hall.read p n s s halike).1.symm⟩

/-- A sparse cube whose null value is 7, seen through a rolled conversion: what is missing reads as 7, and
so does a position that was written and then erased. -/
theorem erased_in_rolled_conversion_reads_as_null :
    let source : LeafSource .i32 := .sparse [.ofLength 4] 7 (.zero .double false)
    let leaf : Cube .i32 := .leaf .i32 0 [.ofLength 4]
    let c := (leaf.convert 0 .i64).rollFlat 1 1
    let w := (source.make.run.run {}).2
    let s := ((c.elements.answer (.raw (.set 2 5))).run w.store).state
    let t := ((c.elements.nullable.set 2 none).outcome s).2
    source.make.run.run {} = (.ok leaf, w) ∧
      (c.elements.nullable.set 2 none).outcome s = (.ok (), t) ∧
      ((c.elements.raw.get 2).outcome t).1 = .ok 7 := by
  intro source leaf c w s t
  have hmake : source.make.run.run {} = (.ok leaf, w) := rfl
  have hlayered : Layered leaf c := .derive (.convert .root) (rfl : (Derivation.rollFlat 1).make 1 _ = _)
  have hreach : w.store.Reaches s := .request .refl c _
  obtain ⟨hmissing, hagrees, -⟩ := source.channels_agree hmake hreach hlayered
  have herase : (c.elements.nullable.set 2 none).outcome s = (.ok (), t) := rfl
  refine ⟨hmake, herase, ?_⟩
  rw [hagrees.erase 2 t herase]
  have hconverted : c.missing s = Kind.convert .i32 .i64 (leaf.missing s) := rfl
  rw [hconverted, hmissing]
  rfl

end LeafSource

end Orthotope
