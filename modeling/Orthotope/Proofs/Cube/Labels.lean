import Orthotope.Proofs.Cube.Bulk
import Orthotope.Proofs.Dimension.Keys

/-!
# Labels follow elements

The transform of a view says where its elements come from, and the axes of the view say under which
keys they are found. The two are computed apart from each other. For the operations that keep labels
(`Derivation.keepsLabels`) they agree: where an axis of the result comes from is said by
`Derivation.sources`, coordinates move along it (`Derivation.getElem?_place`), and the keys do as well
(`Layered.labels_follow`).

When a slice is folded into another, its axes are made from those of the cube beneath. That this comes
to the same is due to an invariant: the axes of a slice are those that its entries take from the axes
beneath, and the axes of a transposed view are those beneath in reverse order
(`Transform.Relabels`, `Cube.Labelled`). One lemma for each operation keeps it.
-/

namespace Orthotope

/-! ## Where axes come from -/

namespace Derivation

/-- Whether an operation moves keys with the elements. A roll moves elements only, and a new shape has
new axes. -/
def keepsLabels : Derivation → Bool
  | transpose | slice _ | mask .. => true
  | roll _ | rollAxes .. | rollFlat _ | reshape _ => false

/-- Where the axes of the result come from, for a cube of the given shape and an operation that keeps
labels. -/
def sources (shape : List Nat) : Derivation → List AxisSource
  | transpose => (List.range shape.length).reverse.map fun axis => ⟨axis, id⟩
  | slice accessors =>
    match Accessor.resolveAll shape accessors with
    | .ok axes => AxisSlice.sources axes
    | .error _ => []
  | mask marks _ =>
    ⟨0, fun i => marks.marked.getD i 0⟩ ::
      (List.range' 1 (shape.length - 1)).map fun axis => ⟨axis, id⟩
  | roll _ | rollAxes .. | rollFlat _ | reshape _ => []

theorem sources_slice {shape : List Nat} {accessors : List Accessor} {axes : List AxisSlice}
    (h : Accessor.resolveAll shape accessors = .ok axes) :
    sources shape (.slice accessors) = AxisSlice.sources axes := by
  rw [sources, h]

/-- The source of an axis of a transposed cube. -/
theorem getElem?_sources_transpose {shape : List Nat} {a : Nat} {s : AxisSource}
    (hs : (sources shape .transpose)[a]? = some s) :
    a < shape.length ∧ s = ⟨shape.length - 1 - a, id⟩ := by
  simp only [sources] at hs
  rw [List.getElem?_map] at hs
  obtain ⟨axis, haxis, rfl⟩ := Option.map_eq_some_iff.1 hs
  obtain ⟨hlt, rfl⟩ := List.getElem?_eq_some_iff.1 haxis
  rw [List.length_reverse, List.length_range] at hlt
  exact ⟨hlt, by simp⟩

/-- The source of an axis of a masked cube. -/
theorem getElem?_sources_mask {shape : List Nat} {marks : BitSet} {canonical : marks.Canonical}
    {a : Nat} {s : AxisSource} (hs : (sources shape (.mask marks canonical))[a]? = some s) :
    (a = 0 ∧ s = ⟨0, fun i => marks.marked.getD i 0⟩) ∨
      ∃ b, a = b + 1 ∧ a < shape.length ∧ s = ⟨a, id⟩ := by
  cases a with
  | zero =>
    cases hs
    exact .inl ⟨rfl, rfl⟩
  | succ b =>
    simp only [sources, List.getElem?_cons_succ, List.getElem?_map] at hs
    obtain ⟨axis, haxis, rfl⟩ := Option.map_eq_some_iff.1 hs
    obtain ⟨hlt, rfl⟩ := List.getElem?_eq_some_iff.1 haxis
    rw [List.length_range'] at hlt
    refine .inr ⟨b, rfl, by omega, ?_⟩
    simp [Nat.add_comm]

/-- Each coordinate of the result moves to the axis that it comes from, to its place there. -/
theorem getElem?_place {shape cs : List Nat} {op : Derivation} {a : Nat} {s : AxisSource}
    (hs : (op.sources shape)[a]? = some s) (hc : cs.length = (op.shape shape).length) :
    (op.place shape cs)[s.axis]? = cs[a]?.map s.place := by
  cases op with
  | transpose =>
    obtain ⟨ha, rfl⟩ := getElem?_sources_transpose hs
    have hlen : cs.length = shape.length := by
      rw [hc, Derivation.shape, List.length_reverse]
    have haxis : shape.length - 1 - a < cs.length := by omega
    rw [place, Option.map_id, id, List.getElem?_reverse haxis]
    exact congrArg (cs[·]?) (by omega)
  | slice accessors =>
    simp only [sources] at hs
    cases haxes : Accessor.resolveAll shape accessors with
    | error e =>
      rw [haxes] at hs
      cases hs
    | ok axes =>
      rw [haxes] at hs
      simp only [Derivation.shape, haxes] at hc
      simp only [place, haxes]
      exact AxisSlice.getElem?_place hs hc
  | mask marks canonical =>
    cases cs with
    | nil => cases hc
    | cons i cs =>
      rcases getElem?_sources_mask hs with ⟨rfl, rfl⟩ | ⟨b, rfl, -, rfl⟩
      · rfl
      · rw [Option.map_id]
        rfl
  | roll | rollAxes | rollFlat | reshape => cases hs

end Derivation

/-- Each axis that has a source shows the axis that it comes from. -/
def Dimension.AllShow (parts dims : List Dimension) (sources : List AxisSource) : Prop :=
  parts.length = sources.length ∧ ∀ {a : Nat} {s : AxisSource}, sources[a]? = some s →
    ∃ part d, parts[a]? = some part ∧ dims[s.axis]? = some d ∧ part.Shows d s.place

/-! ## Labelled cubes -/

/-- What the axes of a view have to do with those beneath, for the transforms that others are folded
into with their labels. -/
def Transform.Relabels (inner dims : List Dimension) : Transform → Prop
  | .transposed => dims = inner.reverse
  | .sliced axes => Dimension.slice inner axes = .ok dims
  | .rolled _ | .flatRolled _ | .masked _ | .reshaped => True

namespace Cube

variable {k : Kind} {c d inner : Cube k} {serial s : Nat} {dims : List Dimension}
  {transform : Transform} {axes : List AxisSlice}

/-- All axes in a cube have derived indices, and the views in it have the axes that their transforms
give. -/
def Labelled : {k : Kind} → Cube k → Prop
  | _, leaf _ _ dims => ∀ d ∈ dims, d.index.Derived
  | _, view _ inner dims transform =>
    inner.Labelled ∧ (∀ d ∈ dims, d.index.Derived) ∧ transform.Relabels inner.dims dims
  | _, cast _ inner _ => inner.Labelled

theorem Labelled.derived (h : c.Labelled) : ∀ d ∈ c.dims, d.index.Derived := by
  induction c with
  | leaf => exact h
  | view => exact h.2.1
  | cast serial inner target ih => exact ih h

/-! ## Transposing -/

/-- The axes of a transposed cube are in reverse order, whatever cube it is. -/
theorem Labelled.dims_transpose (h : c.Labelled) : (c.transpose serial).dims = c.dims.reverse := by
  unfold transpose
  split
  · next hrank =>
    have hrev : ∀ {ds : List Dimension}, ds.length ≤ 1 → ds = ds.reverse
      | [], _ | [_], _ => rfl
    exact hrev hrank
  · split
    · next s inner dims _ =>
      have hdims : dims = inner.dims.reverse := h.2.2
      show inner.dims = dims.reverse
      rw [hdims, List.reverse_reverse]
    · rfl

theorem Labelled.transpose (h : c.Labelled) : (c.transpose serial).Labelled := by
  have hderived : ∀ d ∈ c.dims.reverse, d.index.Derived :=
    fun d hd => h.derived d (List.mem_reverse.1 hd)
  unfold Cube.transpose
  split
  · exact h
  · split
    · exact h.1
    · exact ⟨h, hderived, rfl⟩

/-! ## Rolling and reshaping -/

theorem Labelled.rollBy {shifts : List Nat} (h : c.Labelled) : (c.rollBy serial shifts).Labelled := by
  unfold Cube.rollBy
  split
  · exact h
  · split
    · dsimp only
      split
      · exact h.1
      · exact ⟨h.1, h.2.1, trivial⟩
    · exact ⟨h, h.derived, trivial⟩

theorem Labelled.roll {shifts : List Int} (h : c.Labelled) (hmake : c.roll serial shifts = .ok d) :
    d.Labelled := by
  unfold Cube.roll at hmake
  split at hmake
  · cases hmake
    exact h.rollBy
  · cases hmake

theorem Labelled.rollAxes {shifts : List Int} {axes : List Nat} (h : c.Labelled)
    (hmake : c.rollAxes serial shifts axes = .ok d) : d.Labelled := by
  unfold Cube.rollAxes at hmake
  split at hmake
  · cases hmake
  obtain ⟨-, -, hmake⟩ := bind_eq_ok hmake
  obtain ⟨all, -, hmake⟩ := bind_eq_ok hmake
  exact h.roll hmake

theorem Labelled.rollFlat {shift : Int} (h : c.Labelled) : (c.rollFlat serial shift).Labelled := by
  unfold Cube.rollFlat
  dsimp only
  split
  · exact h
  · split
    · split
      · exact h.1
      · exact ⟨h.1, h.2.1, trivial⟩
    · exact ⟨h, h.derived, trivial⟩

/-- The axes of a shape have their positions for keys. -/
theorem derived_of_mem_ofShape {shape : List Nat} {d : Dimension} (hd : d ∈ Dimension.ofShape shape) :
    d.index.Derived := by
  obtain ⟨⟨n, axis⟩, -, rfl⟩ := List.mem_map.1 hd
  exact .whole _

theorem Labelled.reshape {shape : List Nat} (h : c.Labelled)
    (hmake : c.reshape serial shape = .ok d) : d.Labelled := by
  -- the view is put on a cube that is labelled, be it the cube itself or the one beneath
  have hover : ∀ {b : Cube k}, b.Labelled → (if shape = b.shape then .ok b
      else .ok (view serial b (Dimension.ofShape shape) .reshaped) : Except Error (Cube k)) = .ok d →
      d.Labelled := by
    intro b hb hmake
    split at hmake
    · cases hmake
      exact hb
    · cases hmake
      exact ⟨hb, fun d hd => derived_of_mem_ofShape hd, trivial⟩
  unfold Cube.reshape at hmake
  split at hmake
  · cases hmake
  split at hmake
  · cases hmake
    exact h
  cases c with
  | leaf | cast => exact hover h hmake
  | view s inner dims transform =>
    cases transform with
    | reshaped => exact hover h.1 hmake
    | _ => exact hover h hmake

/-! ## Slicing -/

/-- The axes of a new slice show those that they come from. -/
theorem allShow_of_slice {parts : List Dimension} (h : AxisSlice.FitsAll axes (shapeOf dims))
    (hslice : Dimension.slice dims axes = .ok parts) :
    Dimension.AllShow parts dims (AxisSlice.sources axes) := by
  obtain ⟨parts', hparts', hshape⟩ := Dimension.slice_of_fits h
  obtain rfl : parts' = parts := Except.ok.inj (hparts'.symm.trans hslice)
  refine ⟨?_, fun hs => Dimension.slice_shows h hslice hs⟩
  rw [AxisSlice.length_sources, ← hshape, shapeOf, List.length_map]

/-- The axes of a slice folded into another, which are made from those beneath, show those of the first
slice. -/
theorem allShow_of_compose {beneath parts : List Dimension} {current : List AxisSlice}
    (hcurrent : AxisSlice.FitsAll current (shapeOf beneath))
    (hdims : Dimension.slice beneath current = .ok dims)
    (haxes : AxisSlice.FitsAll axes (shapeOf dims))
    (hparts : Dimension.slice beneath (AxisSlice.compose current axes) = .ok parts) :
    Dimension.AllShow parts dims (AxisSlice.sources axes) := by
  have hbeneath := allShow_of_slice hcurrent hdims
  obtain ⟨dims', hdims', hshape⟩ := Dimension.slice_of_fits hcurrent
  obtain rfl : dims' = dims := Except.ok.inj (hdims'.symm.trans hdims)
  have haxes' : AxisSlice.FitsAll axes (AxisSlice.counts current) := hshape ▸ haxes
  obtain ⟨hfits, hcounts⟩ := hcurrent.compose haxes'
  have hcomposed := allShow_of_slice hfits hparts
  obtain ⟨parts', hparts', hshape'⟩ := Dimension.slice_of_fits hfits
  obtain rfl : parts' = parts := Except.ok.inj (hparts'.symm.trans hparts)
  refine ⟨?_, fun {a s} hs => ?_⟩
  · rw [hcomposed.1, AxisSlice.length_sources, AxisSlice.length_sources, hcounts]
  obtain ⟨t, ht, hst⟩ := hcurrent.sources_compose haxes' hs
  obtain ⟨part, e, hpart, he, hshows⟩ := hcomposed.2 hst
  obtain ⟨d, e', hd, he', hshows'⟩ := hbeneath.2 ht
  obtain rfl : e' = e := Option.some.inj (he'.symm.trans he)
  refine ⟨part, d, hpart, hd, Dimension.Shows.factor (f := s.place) (g := t.place) hshows hshows' fun i hi => ?_⟩
  -- the entry of the second slice lies within the axis that the first one leaves
  obtain ⟨count, n, hcount, hn, hlt⟩ := haxes.sources_lt hs
  have hlength : (shapeOf parts')[a]? = some part.length := by simp [shapeOf, hpart]
  have hlength' : (shapeOf dims')[s.axis]? = some d.length := by simp [shapeOf, hd]
  rw [hshape', hcounts, hcount] at hlength
  rw [hn] at hlength'
  cases hlength
  cases hlength'
  exact hlt i hi

/-- Keeping every axis whole takes each axis from itself. -/
theorem sources_map_whole {shape : List Nat} {a : Nat} {s : AxisSource}
    (hs : (AxisSlice.sources (shape.map AxisSlice.whole))[a]? = some s) : s = ⟨a, id⟩ := by
  induction shape generalizing a s with
  | nil => cases hs
  | cons n shape ih =>
    cases a with
    | zero =>
      cases hs
      have hid : (fun i : Nat => 0 + i * 1) = id := funext fun i => by simp
      rw [hid]
    | succ a =>
      obtain ⟨t, ht, rfl⟩ := getElem?_map_next hs
      rw [ih ht]
      rfl

/-- Axes that come from themselves show themselves. -/
theorem allShow_self {dims : List Dimension} {sources : List AxisSource}
    (hlen : dims.length = sources.length)
    (hid : ∀ {a : Nat} {s : AxisSource}, sources[a]? = some s → s.axis = a ∧
      ∀ d, dims[a]? = some d → ∀ i < d.length, s.place i = i) :
    Dimension.AllShow dims dims sources := by
  refine ⟨hlen, fun {a s} hs => ?_⟩
  obtain ⟨ha, -⟩ := List.getElem?_eq_some_iff.1 hs
  rw [← hlen] at ha
  obtain ⟨haxis, hplace⟩ := hid hs
  have hd := List.getElem?_eq_getElem ha
  refine ⟨dims[a], dims[a], hd, (congrArg (dims[·]?) haxis).trans hd, fun i hi => ?_, fun i hi => ?_⟩
  · rw [hplace _ hd i hi]
    exact hi
  · rw [hplace _ hd i hi]

/-- A slice keeps a cube labelled, and its axes show those of the cube, also if it is folded. -/
theorem Labelled.slice {accessors : List Accessor} (h : c.Labelled) (hfits : c.Fits)
    (haxes : Accessor.resolveAll c.shape accessors = .ok axes)
    (hmake : c.slice serial accessors = .ok d) :
    d.Labelled ∧ Dimension.AllShow d.dims c.dims (AxisSlice.sources axes) := by
  have hfit := Accessor.resolveAll_fits haxes
  -- a new slice on a labelled cube
  have hnew : ∀ {b : Cube k} {axes : List AxisSlice}, b.Labelled →
      AxisSlice.FitsAll axes b.shape → b.sliceBy serial axes = .ok d → d.Labelled := by
    intro b axes hb hfit hmake
    obtain ⟨dims, hdims, rfl⟩ := sliceBy_eq_ok hmake
    exact ⟨hb, Dimension.derived_of_slice hfit hb.derived hdims, hdims⟩
  obtain ⟨-, -, hrank⟩ := resolved_of_slice hmake
  rw [Cube.slice, if_neg (Nat.not_lt.2 hrank), haxes] at hmake
  change (if axes = c.shape.map AxisSlice.whole then _ else _) = _ at hmake
  split at hmake
  · next hwhole =>
    cases hmake
    refine ⟨h, ?_⟩
    rw [hwhole]
    refine allShow_self ?_ fun hs => ?_
    · rw [AxisSlice.length_sources, AxisSlice.counts_map_whole, shape, shapeOf, List.length_map]
    · rw [sources_map_whole hs]
      exact ⟨rfl, fun _ _ _ _ => rfl⟩
  split at hmake
  · next s inner dims current _ =>
    obtain ⟨hcurrent, hshape⟩ :
      AxisSlice.FitsAll current inner.shape ∧ shapeOf dims = AxisSlice.counts current := hfits.2
    have hfit : AxisSlice.FitsAll axes (shapeOf dims) := hfit
    refine ⟨hnew h.1 (hcurrent.compose (hshape ▸ hfit)).1 hmake, ?_⟩
    obtain ⟨parts, hparts, rfl⟩ := sliceBy_eq_ok hmake
    exact allShow_of_compose hcurrent h.2.2 hfit hparts
  · refine ⟨hnew h hfit hmake, ?_⟩
    obtain ⟨parts, hparts, rfl⟩ := sliceBy_eq_ok hmake
    exact allShow_of_slice hfit hparts

/-! ## Masking -/

section
variable {marks : BitSet} {first : Dimension} {rest : List Dimension}

theorem length_sources_mask (canonical : marks.Canonical) (first : Dimension) (rest : List Dimension) :
    (Derivation.sources (shapeOf (first :: rest)) (.mask marks canonical)).length =
      (first :: rest).length := by
  simp [Derivation.sources, shapeOf]

/-- The axes under a mask are shown by the first of them masked and the others as they are. -/
theorem allShow_mask (canonical : marks.Canonical) (hsize : marks.size = first.length) :
    Dimension.AllShow (first.mask marks :: rest) (first :: rest)
      (Derivation.sources (shapeOf (first :: rest)) (.mask marks canonical)) := by
  have hlen := length_sources_mask canonical first rest
  refine ⟨hlen.symm, fun {a s} hs => ?_⟩
  obtain ⟨ha, -⟩ := List.getElem?_eq_some_iff.1 hs
  rw [hlen] at ha
  rcases Derivation.getElem?_sources_mask hs with ⟨rfl, rfl⟩ | ⟨b, rfl, -, rfl⟩
  · refine ⟨_, first, rfl, rfl, ?_⟩
    have hmarked : marks.marked = marks.positions := canonical.positions_eq.symm
    rw [hmarked]
    exact first.shows_mask canonical hsize
  · have hb : b < rest.length := Nat.lt_of_succ_lt_succ ha
    exact ⟨rest[b], rest[b], by simp [hb], by simp [hb], .refl _⟩

/-- A mask that marks everything takes each axis from itself. -/
theorem allShow_mask_full (canonical : marks.Canonical) (hsize : marks.size = first.length)
    (hfull : marks.isFull = true) :
    Dimension.AllShow (first :: rest) (first :: rest)
      (Derivation.sources (shapeOf (first :: rest)) (.mask marks canonical)) := by
  refine allShow_self (length_sources_mask canonical first rest).symm fun hs => ?_
  rcases Derivation.getElem?_sources_mask hs with ⟨rfl, rfl⟩ | ⟨b, rfl, -, rfl⟩
  · refine ⟨rfl, fun d hd i hi => ?_⟩
    cases hd
    have hmarked : marks.marked = marks.positions := canonical.positions_eq.symm
    rw [hmarked, canonical.positions_of_isFull hfull, hsize]
    simp [hi]
  · exact ⟨rfl, fun _ _ _ _ => rfl⟩

/-- A mask keeps a cube labelled, and its axes show those of the cube, also if it is folded. -/
theorem Labelled.mask (h : c.Labelled) (canonical : marks.Canonical)
    (hmake : c.mask serial marks = .ok d) :
    d.Labelled ∧ Dimension.AllShow d.dims c.dims
      (Derivation.sources c.shape (.mask marks canonical)) := by
  unfold Cube.mask at hmake
  split at hmake
  · cases hmake
  next first rest hdims =>
  split at hmake
  · cases hmake
  next hsize =>
  have hsize : marks.size = first.length := Decidable.not_not.1 hsize
  have hderived := h.derived
  rw [shape, hdims]
  rw [hdims] at hderived
  have hnew : ∀ d ∈ first.mask marks :: rest, d.index.Derived :=
    List.forall_mem_cons.2 ⟨(hderived first List.mem_cons_self).mask canonical,
      fun d hd => hderived d (List.mem_cons_of_mem _ hd)⟩
  split at hmake
  · next hfull =>
    cases hmake
    rw [hdims]
    exact ⟨h, allShow_mask_full canonical hsize hfull⟩
  split at hmake
  · cases hmake
    exact ⟨⟨h.1, hnew, trivial⟩, allShow_mask canonical hsize⟩
  · cases hmake
    exact ⟨⟨h, hnew, trivial⟩, allShow_mask canonical hsize⟩

end

end Cube

/-! ## All operations -/

namespace Derivation

variable {k : Kind} {c d : Cube k} {serial : Nat}

/-- An operation that succeeds keeps a cube labelled. -/
theorem labelled_make (h : c.Labelled) (hfits : c.Fits) (op : Derivation)
    (hmake : op.make serial c = .ok d) : d.Labelled := by
  cases op with
  | transpose =>
    cases hmake
    exact h.transpose
  | roll => exact h.roll hmake
  | rollAxes => exact h.rollAxes hmake
  | rollFlat =>
    cases hmake
    exact h.rollFlat
  | slice accessors =>
    obtain ⟨axes, haxes, -⟩ := Cube.resolved_of_slice hmake
    exact (h.slice hfits haxes hmake).1
  | mask marks canonical => exact (h.mask canonical hmake).1
  | reshape => exact h.reshape hmake

/-- If an operation keeps labels, the axes of the result show those that they come from. -/
theorem allShow_make (h : c.Labelled) (hfits : c.Fits) {op : Derivation} (hop : op.keepsLabels = true)
    (hmake : op.make serial c = .ok d) : Dimension.AllShow d.dims c.dims (op.sources c.shape) := by
  cases op with
  | transpose =>
    cases hmake
    rw [h.dims_transpose]
    have hlen : c.shape.length = c.dims.length := List.length_map _
    refine ⟨by simp [sources, hlen], fun {a s} hs => ?_⟩
    obtain ⟨ha, rfl⟩ := getElem?_sources_transpose hs
    rw [hlen] at ha ⊢
    have haxis : c.dims.length - 1 - a < c.dims.length := by omega
    have hd := List.getElem?_eq_getElem haxis
    exact ⟨_, _, (List.getElem?_reverse ha).trans hd, hd, .refl _⟩
  | slice accessors =>
    obtain ⟨axes, haxes, -⟩ := Cube.resolved_of_slice hmake
    rw [sources_slice haxes]
    exact (h.slice hfits haxes hmake).2
  | mask marks canonical => exact (h.mask canonical hmake).2
  | roll | rollAxes | rollFlat | reshape => cases hop

end Derivation

namespace Layered

variable {k₀ k : Kind} {slot serial : Nat} {dims : List Dimension} {c r : Cube k} {op : Derivation}

theorem labelled (h : Layered (.leaf k₀ slot dims) c) (hdims : ∀ d ∈ dims, d.index.Derived) :
    c.Labelled := by
  induction h with
  | root => exact hdims
  | derive beneath make ih => exact Derivation.labelled_make ih beneath.fits_and_bottom.1 _ make
  | convert _ ih => exact ih

/-- After a slice, a mask or a transposition, each element is found under the keys that it had. Every
axis of the result comes from an axis of the cube; each coordinate of the result refers to the
coordinate of the cube that lies at its place on that axis; and for every position on the axis, also
if the cube is empty, the key there is the key at that place, and the key leads back to the
position. -/
theorem labels_follow (h : Layered (.leaf k₀ slot dims) c) (hdims : ∀ d ∈ dims, d.index.Derived)
    (hop : op.keepsLabels = true) (hmake : op.make serial c = .ok r) :
    (∀ cs, Within r.shape cs →
      Within c.shape (op.place c.shape cs) ∧ r.base = c.base ∧
      r.origin (offset r.shape cs) = c.origin (offset c.shape (op.place c.shape cs)) ∧
      ∀ {a : Nat} {s : AxisSource}, (op.sources c.shape)[a]? = some s →
        (op.place c.shape cs)[s.axis]? = cs[a]?.map s.place) ∧
    ∀ {a : Nat} {part : Dimension}, r.dims[a]? = some part →
      ∃ s d, (op.sources c.shape)[a]? = some s ∧ c.dims[s.axis]? = some d ∧
        ∀ i < part.length, s.place i < d.length ∧
          ∃ key, part.index.keyOf i = some key ∧ d.index.keyOf (s.place i) = some key ∧
            part.index.indexOf key = some i := by
  have hfits := h.fits_and_bottom.1
  have hlabelled := h.labelled hdims
  have hpresents := Derivation.presents hfits op hmake
  constructor
  · intro cs hc
    have hc' : Within (op.shape c.shape) cs := hpresents.shape_eq ▸ hc
    refine ⟨hpresents.within hc', hpresents.base, ?_, fun hs => ?_⟩
    · rw [hpresents.shape_eq]
      exact hpresents.origin hc'
    · exact Derivation.getElem?_place hs hc'.length_eq
  · intro a part hpart
    obtain ⟨hlen, hshow⟩ := Derivation.allShow_make hlabelled hfits hop hmake
    obtain ⟨ha, -⟩ := List.getElem?_eq_some_iff.1 hpart
    have hs := List.getElem?_eq_getElem (hlen ▸ ha)
    obtain ⟨part', d, hpart', hd, hshows⟩ := hshow hs
    obtain rfl : part' = part := Option.some.inj (hpart'.symm.trans hpart)
    refine ⟨_, d, hs, hd, fun i hi => ⟨hshows.place_lt i hi, ?_⟩⟩
    have hderived := (Derivation.labelled_make hlabelled hfits op hmake).derived part'
      (List.mem_of_getElem? hpart)
    obtain ⟨key, hkey, hback⟩ := hderived.indexOf_keyOf hi
    exact ⟨key, hkey, (hshows.keyOf i hi).symm.trans hkey, hback⟩

/-- A leaf with five rows that have letters for keys. -/
def lettered : Cube .i32 :=
  .leaf .i32 0 [.ofBase (.labelled "L" #[.text "a", .text "b", .text "c", .text "d", .text "e"]
    (by decide)), .ofLength 2]

/-- Every other row of five is taken, and of those all but the first: the last row is still found under
its key, although the second slice is made from the rows of the leaf. -/
theorem labels_follow_slice_of_slice :
    ∃ c r part, Derivation.make 1 lettered (.slice [.range 0 none 2]) = .ok c ∧
      Derivation.make 2 c (.slice [.since 1]) = .ok r ∧ r.dims[0]? = some part ∧
      part.index.keyOf 1 = some (.text "e") ∧ part.index.indexOf (.text "e") = some 1 := by
  have hdims : ∀ d ∈ lettered.dims, d.index.Derived :=
    List.forall_mem_cons.2 ⟨.whole _, List.forall_mem_cons.2 ⟨.whole _, fun _ hd => nomatch hd⟩⟩
  have hop : (Derivation.slice [.since 1]).keepsLabels = true := rfl
  let letters : Base := .labelled "L" #[.text "a", .text "b", .text "c", .text "d", .text "e"] (by decide)
  let columns : Dimension := ⟨.range "D[0:2]" (.natural "D" 2) 0 2⟩
  let c : Cube .i32 := .view 1 lettered [⟨.masked "L[mask]" letters #[0, 2, 4]⟩, columns]
    (.sliced [.range 0 2 3, .range 0 1 2])
  let r : Cube .i32 := .view 2 lettered [⟨.masked "L[mask]" letters #[2, 4]⟩, columns]
    (.sliced [.range 2 2 2, .range 0 1 2])
  have hc : Derivation.make 1 lettered (.slice [.range 0 none 2]) = .ok c := by cbv
  have hr : Derivation.make 2 c (.slice [.since 1]) = .ok r := by cbv
  obtain ⟨-, hkeys⟩ := labels_follow (.derive .root hc) hdims hop hr
  refine ⟨c, r, _, hc, hr, rfl, rfl, ?_⟩
  obtain ⟨s, d, -, -, hall⟩ := hkeys (a := 0) rfl
  obtain ⟨-, key, hkey, -, hback⟩ := hall 1 (by decide)
  cases hkey
  exact hback

end Layered

end Orthotope
