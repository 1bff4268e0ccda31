import Mathlib.Data.List.Chain
import Orthotope.Proofs.Cube.Bulk
import Orthotope.Proofs.Cube.Chain

/-!
# Chains of views stay reduced

Operations of one kind are folded into one view, and a view that would change nothing is not made. So
in the chain of views of a cube (`Cube.views`) no two neighbours are of one kind, and each view changes
something (`View.Proper`); such a cube is `Cube.Reduced`.

All operations keep that for one reason, `Cube.Folds`: an operation gives the cube itself, the cube
under a view of its own kind, or a proper view of that kind over the latter. There is one lemma for each
operation that says so, and `Derivation.folds` puts them together. In particular operations of one kind
never change what is under a view of that kind (`Cube.Folds.under_eq`), however many there are, and so
add one view at most (`Chain.length_views_le`).
-/

namespace Orthotope

/-- The kinds of views. -/
inductive ViewKind where
  | transposed
  | sliced
  | rolled
  | flatRolled
  | masked
  | reshaped
  deriving DecidableEq

/-- The kind of the views with a transform. -/
def Transform.viewKind : Transform → ViewKind
  | transposed => .transposed
  | sliced _ => .sliced
  | rolled _ => .rolled
  | flatRolled _ => .flatRolled
  | masked _ => .masked
  | reshaped => .reshaped

/-- The kind of the views that an operation makes. -/
def Derivation.viewKind : Derivation → ViewKind
  | transpose => .transposed
  | roll _ => .rolled
  | rollAxes .. => .rolled
  | rollFlat _ => .flatRolled
  | slice _ => .sliced
  | mask .. => .masked
  | reshape _ => .reshaped

/-- A view is not the identity of its kind: there are axes to transpose, an axis is cut, some axis is
shifted, the elements are shifted by less than a turn, a position of the first axis is left out, or the
shape is another one. -/
def View.Proper (v : View) : Prop :=
  match v.transform with
  | .transposed => 2 ≤ v.source.length
  | .sliced axes => ∃ cut ∈ axes.zip v.source, cut.1 ≠ .range 0 1 cut.2
  | .rolled shifts => ∃ s ∈ shifts, s ≠ 0
  | .flatRolled shift => 0 < shift ∧ shift < v.size
  | .masked positions => ∃ n ∈ v.source.head?, positions.size < n
  | .reshaped => v.shape ≠ v.source

/-! ## What folds into what -/

namespace AxisSlice

/-- A slice cuts some axis if it does not keep every axis whole. -/
theorem exists_cut_iff {axes : List AxisSlice} {shape : List Nat}
    (hlen : axes.length = shape.length) :
    (∃ cut ∈ axes.zip shape, cut.1 ≠ .range 0 1 cut.2) ↔ axes ≠ shape.map whole := by
  induction shape generalizing axes with
  | nil => simp [List.eq_nil_of_length_eq_zero hlen]
  | cons n shape ih =>
    cases axes with
    | nil => cases hlen
    | cons axis axes =>
      have hrest := ih (Nat.succ.inj hlen)
      rw [List.zip_cons_cons, List.map_cons, Ne, List.cons.injEq, Decidable.not_and_iff_or_not]
      constructor
      · rintro ⟨cut, hmem, hcut⟩
        rcases List.mem_cons.1 hmem with rfl | hmem
        · exact .inl hcut
        · exact .inr (hrest.1 ⟨cut, hmem, hcut⟩)
      · rintro (haxis | haxes)
        · exact ⟨(axis, n), List.mem_cons_self, haxis⟩
        · obtain ⟨cut, hmem, hcut⟩ := hrest.2 haxes
          exact ⟨cut, List.mem_cons_of_mem _ hmem, hcut⟩

/-- A range of a range that is the whole axis comes from the whole axis. -/
theorem eq_whole_of_range_range {start step count start' step' count' n : Nat}
    (h : (range start step count).Fits n) (h' : (range start' step' count').Fits count)
    (heq : range (start + start' * step) (step * step') count' = whole n) :
    range start step count = whole n := by
  injection heq with hstart hstep hcount
  obtain rfl : step = 1 := Nat.eq_one_of_mul_eq_one_right hstep
  obtain rfl : step' = 1 := Nat.eq_one_of_mul_eq_one_left hstep
  have hle := h.stop_le
  have hle' := h'.stop_le
  obtain rfl : start = 0 := by omega
  obtain rfl : count = n := by omega
  rfl

/-- A slice of a slice keeps every axis whole only if the first slice does. -/
theorem FitsAll.eq_whole_of_compose {inner outer : List AxisSlice} {shape : List Nat}
    (h : FitsAll inner shape) (h' : FitsAll outer (counts inner))
    (heq : AxisSlice.compose inner outer = shape.map whole) : inner = shape.map whole := by
  induction h generalizing outer with
  | nil => rfl
  | @cons axis n inner shape hfit _ ih =>
    cases axis with
    | fixed c => cases heq
    | range start step count =>
      obtain ⟨axis, outer, hfit', hrest, rfl⟩ := List.forall₂_cons_right_iff.1 h'
      cases axis with
      | fixed c => cases heq
      | range start' step' count' =>
        obtain ⟨hhead, htail⟩ := List.cons.inj heq
        rw [eq_whole_of_range_range hfit hfit' hhead, ih hrest htail, List.map_cons]

end AxisSlice

/-- If not all shifts are zero, one is not. -/
theorem exists_shift {shifts : List Nat} (h : ¬ shifts.all (· = 0) = true) : ∃ s ∈ shifts, s ≠ 0 := by
  simpa using h

/-- Fewer positions are marked than there are, if not all are. -/
theorem BitSet.Canonical.length_positions_lt {marks : BitSet} (h : marks.Canonical)
    (hfull : ¬ marks.isFull = true) : marks.positions.length < marks.size := by
  have hle : marks.positions.length ≤ marks.size := by
    rw [h.positions_eq]
    exact Nat.le_trans (List.length_filter_le _ _) (Nat.le_of_eq List.length_range)
  refine Nat.lt_of_le_of_ne hle fun heq => hfull ?_
  rw [isFull, count_eq_length_positions, heq]
  exact decide_eq_true rfl

namespace Cube

variable {k : Kind} {c d : Cube k} {kind : ViewKind} {serial : Nat}

/-- The chain of views of a cube, from the top down to a cube that is none. -/
def views : {k : Kind} → Cube k → List View
  | _, view _ inner dims transform => inner.viewOver dims transform :: inner.views
  | _, _ => []

/-- Each view of a cube changes something, and no two neighbours are of one kind. -/
structure Reduced (c : Cube k) : Prop where
  proper : ∀ v ∈ c.views, v.Proper
  alternate : c.views.IsChain fun v w => v.transform.viewKind ≠ w.transform.viewKind

/-- A cube without views on top of a view of a kind. -/
def under (kind : ViewKind) : Cube k → Cube k
  | view serial inner dims transform =>
    if transform.viewKind = kind then inner else view serial inner dims transform
  | c => c

/-- What an operation of a kind may give. -/
inductive Folds (kind : ViewKind) (c : Cube k) : Cube k → Prop where
  | same : Folds kind c c
  | under : Folds kind c (c.under kind)
  | view (serial : Nat) (dims : List Dimension) {transform : Transform}
      (hkind : transform.viewKind = kind) (hproper : ((c.under kind).viewOver dims transform).Proper) :
      Folds kind c (.view serial (c.under kind) dims transform)

theorem reduced_of_views_eq_nil (h : c.views = []) : c.Reduced := by
  constructor
  · rw [h]
    exact fun _ hv => absurd hv List.not_mem_nil
  · rw [h]
    exact .nil

theorem reduced_view {inner : Cube k} {dims : List Dimension} {transform : Transform} :
    (view serial inner dims transform).Reduced ↔ inner.Reduced ∧
      (inner.viewOver dims transform).Proper ∧
      ∀ v ∈ inner.views.head?, transform.viewKind ≠ v.transform.viewKind := by
  constructor
  · rintro ⟨hproper, halternate⟩
    obtain ⟨hhead, hrest⟩ := List.isChain_cons.1 halternate
    obtain ⟨hview, hinner⟩ := List.forall_mem_cons.1 hproper
    exact ⟨⟨hinner, hrest⟩, hview, hhead⟩
  · rintro ⟨⟨hinner, hrest⟩, hview, hhead⟩
    exact ⟨List.forall_mem_cons.2 ⟨hview, hinner⟩, List.isChain_cons.2 ⟨hhead, hrest⟩⟩

section
variable {inner : Cube k} {dims : List Dimension} {transform : Transform}

theorem under_view (h : transform.viewKind = kind) :
    (view serial inner dims transform).under kind = inner := if_pos h

theorem under_view_of_ne (h : transform.viewKind ≠ kind) :
    (view serial inner dims transform).under kind = view serial inner dims transform := if_neg h

end

/-- What is under a view of a kind in a reduced cube is reduced, and is itself no view of that kind. -/
theorem Reduced.under (h : c.Reduced) (kind : ViewKind) : (c.under kind).Reduced ∧
    ∀ v ∈ (c.under kind).views.head?, kind ≠ v.transform.viewKind := by
  cases c with
  | leaf | cast => exact ⟨h, fun _ hv => by cases hv⟩
  | view serial inner dims transform =>
    by_cases hkind : transform.viewKind = kind
    · obtain ⟨hinner, -, hhead⟩ := reduced_view.1 h
      rw [under_view hkind, ← hkind]
      exact ⟨hinner, hhead⟩
    · rw [under_view_of_ne hkind]
      refine ⟨h, fun v hv => ?_⟩
      cases hv
      exact Ne.symm hkind

namespace Folds

/-- A new view of a kind on a cube that is none. -/
theorem fresh {dims : List Dimension} {transform : Transform} (hunder : c.under kind = c)
    (hkind : transform.viewKind = kind) (hproper : (c.viewOver dims transform).Proper) :
    Folds kind c (.view serial c dims transform) := by
  have hview := view (c := c) serial dims hkind (hunder.symm ▸ hproper)
  rwa [hunder] at hview

theorem reduced (h : Folds kind c d) (hc : c.Reduced) : d.Reduced := by
  have hunder := hc.under kind
  cases h with
  | same => exact hc
  | under => exact hunder.1
  | view serial dims hkind hproper => exact reduced_view.2 ⟨hunder.1, hproper, hkind ▸ hunder.2⟩

end Folds

/-! ## Slices over what is under them -/

section
variable {accessors : List Accessor} {axes : List AxisSlice}

/-- The entries of a slice of a cube, for the axes of what is under a sliced view. -/
def cutsUnder (c : Cube k) (axes : List AxisSlice) : List AxisSlice :=
  match c with
  | view _ _ _ (.sliced current) => AxisSlice.compose current axes
  | _ => axes

/-- A slice whose accessors are resolved gives the cube itself if they keep every axis whole, and else
cuts what is under a sliced view. -/
theorem slice_of_resolved (hrank : accessors.length ≤ c.rank)
    (haxes : Accessor.resolveAll c.shape accessors = .ok axes) :
    c.slice serial accessors = if axes = c.shape.map AxisSlice.whole then .ok c
      else (c.under .sliced).sliceBy serial (c.cutsUnder axes) := by
  rw [slice, if_neg (Nat.not_lt.2 hrank), haxes]
  show (if axes = c.shape.map AxisSlice.whole then _ else _) = _
  split
  · rfl
  cases c with
  | leaf | cast => rfl
  | view s inner dims transform => cases transform <;> rfl

/-- The entries of a slice fit the axes that they are cut from. -/
theorem Fits.cutsUnder (h : c.Fits) (haxes : AxisSlice.FitsAll axes c.shape) :
    AxisSlice.FitsAll (c.cutsUnder axes) (c.under .sliced).shape := by
  cases c with
  | leaf | cast => exact haxes
  | view s inner dims transform =>
    cases transform with
    | sliced current =>
      obtain ⟨hcurrent, hshape⟩ :
        AxisSlice.FitsAll current inner.shape ∧ shapeOf dims = AxisSlice.counts current := h.2
      have haxes : AxisSlice.FitsAll axes (shapeOf dims) := haxes
      exact (hcurrent.compose (hshape ▸ haxes)).1
    | _ => exact haxes

/-- A slice that does not keep every axis of a reduced cube whole does not keep every axis of what is
under a sliced view whole either. -/
theorem Reduced.cutsUnder_ne_whole (hc : c.Reduced) (h : c.Fits)
    (haxes : AxisSlice.FitsAll axes c.shape) (hne : axes ≠ c.shape.map AxisSlice.whole) :
    c.cutsUnder axes ≠ (c.under .sliced).shape.map AxisSlice.whole := by
  cases c with
  | leaf | cast => exact hne
  | view s inner dims transform =>
    cases transform with
    | sliced current =>
      obtain ⟨hcurrent, hshape⟩ :
        AxisSlice.FitsAll current inner.shape ∧ shapeOf dims = AxisSlice.counts current := h.2
      have haxes : AxisSlice.FitsAll axes (AxisSlice.counts current) := hshape ▸ haxes
      have hcut := (AxisSlice.exists_cut_iff hcurrent.length_eq).1 (reduced_view.1 hc).2.1
      exact fun heq => hcut (hcurrent.eq_whole_of_compose haxes heq)
    | _ => exact hne

end

/-! ## The operations -/

theorem folds_transpose (c : Cube k) : Folds .transposed c (c.transpose serial) := by
  unfold transpose
  split
  · exact .same
  next hrank =>
  have hlen : 2 ≤ c.shape.length := by
    rw [shape, shapeOf, List.length_map]
    exact Nat.lt_of_not_le hrank
  cases c with
  | leaf | cast => exact .view serial _ rfl hlen
  | view s inner dims transform =>
    cases transform with
    | transposed => exact .under
    | _ => exact .view serial _ rfl hlen

theorem folds_rollBy {shifts : List Nat} : Folds .rolled c (c.rollBy serial shifts) := by
  unfold rollBy
  split
  · exact .same
  next hshifts =>
  cases c with
  | leaf | cast => exact .view serial _ rfl (exists_shift hshifts)
  | view s inner dims transform =>
    cases transform with
    | rolled current =>
      dsimp only
      split
      · exact .under
      · next hcombined => exact .view serial dims rfl (exists_shift hcombined)
    | _ => exact .view serial _ rfl (exists_shift hshifts)

theorem folds_roll {shifts : List Int} (hmake : c.roll serial shifts = .ok d) :
    Folds .rolled c d := by
  unfold roll at hmake
  split at hmake
  · cases hmake
    exact folds_rollBy
  · cases hmake

theorem folds_rollFlat {shift : Int} (hfits : c.Fits) :
    Folds .flatRolled c (c.rollFlat serial shift) := by
  have hshift := normalizeShift_fits shift c.size
  unfold rollFlat
  dsimp only
  split
  · exact .same
  next hne =>
  have hlt : normalizeShift shift c.size < c.size := hshift.resolve_right fun hz => hne hz.2
  have hproper : 0 < normalizeShift shift c.size ∧ normalizeShift shift c.size < c.size :=
    ⟨Nat.pos_of_ne_zero hne, hlt⟩
  cases c with
  | leaf | cast => exact .view serial _ rfl hproper
  | view s inner dims transform =>
    cases transform with
    | flatRolled current =>
      dsimp only
      split
      · exact .under
      · next hcombined =>
        have hcurrent : current < sizeOf (shapeOf dims) := hfits.2.2
        have hsum := (addShifts_fits (.inl hcurrent) (.inl hlt)).resolve_right fun hz =>
          hcombined hz.2
        exact .view serial dims rfl ⟨Nat.pos_of_ne_zero hcombined, hsum⟩
    | _ => exact .view serial _ rfl hproper

theorem folds_slice {accessors : List Accessor} (hfits : c.Fits) (hc : c.Reduced)
    (hmake : c.slice serial accessors = .ok d) : Folds .sliced c d := by
  obtain ⟨axes, haxes, hrank⟩ := resolved_of_slice hmake
  have hfit := Accessor.resolveAll_fits haxes
  rw [slice_of_resolved hrank haxes] at hmake
  split at hmake
  · cases hmake
    exact .same
  · next hwhole =>
    obtain ⟨dims, -, rfl⟩ := sliceBy_eq_ok hmake
    have hlen := (hfits.cutsUnder hfit).length_eq
    have hcut := hc.cutsUnder_ne_whole hfits hfit hwhole
    exact .view serial dims rfl ((AxisSlice.exists_cut_iff hlen).2 hcut)

theorem folds_mask {marks : BitSet} (hfits : c.Fits) (hc : c.Reduced) (hmarks : marks.Canonical)
    (hmake : c.mask serial marks = .ok d) : Folds .masked c d := by
  unfold mask at hmake
  split at hmake
  · cases hmake
  next first rest hdims =>
  have hshape : c.shape = first.length :: shapeOf rest := congrArg shapeOf hdims
  split at hmake
  · cases hmake
  next hsize =>
  have hsize : marks.size = first.length := Decidable.not_not.1 hsize
  split at hmake
  · cases hmake
    exact .same
  next hfull =>
  have hlt : marks.positions.length < first.length := hsize ▸ hmarks.length_positions_lt hfull
  have hproper : ∃ n ∈ c.shape.head?, marks.positions.toArray.size < n :=
    ⟨first.length, by rw [hshape]; rfl, hlt⟩
  cases c with
  | leaf | cast =>
    cases hmake
    exact .view serial _ rfl hproper
  | view s inner dims transform =>
    cases transform with
    | masked current =>
      cases hmake
      -- the first axis is as long as the table that is there, which leaves out a position beneath
      obtain ⟨n, rest', hinner, hcurrent, -⟩ := View.fits_masked.1 hfits.2
      obtain ⟨hlength, -⟩ := List.cons.inj (hshape.symm.trans hcurrent)
      obtain ⟨m, hm, hbelow⟩ := (reduced_view.1 hc).2.1
      refine .view serial _ rfl ⟨m, hm, ?_⟩
      rw [List.size_toArray, List.length_map]
      exact Nat.lt_trans hlt (hlength ▸ hbelow)
    | _ =>
      cases hmake
      exact .view serial _ rfl hproper

theorem folds_reshape {shape : List Nat} (hmake : c.reshape serial shape = .ok d) :
    Folds .reshaped c d := by
  unfold reshape at hmake
  split at hmake
  · cases hmake
  split at hmake
  · cases hmake
    exact .same
  have hover : (if shape = (c.under .reshaped).shape then .ok (c.under .reshaped)
      else .ok (view serial (c.under .reshaped) (Dimension.ofShape shape) .reshaped) :
        Except Error (Cube k)) = .ok d → Folds .reshaped c d := by
    intro hmake
    split at hmake
    · cases hmake
      exact .under
    · next hne =>
      cases hmake
      refine .view serial _ rfl ?_
      show shapeOf (Dimension.ofShape shape) ≠ _
      rwa [shapeOf_ofShape]
  cases c with
  | leaf | cast => exact hover hmake
  | view s inner dims transform => cases transform <;> exact hover hmake

end Cube

variable {k : Kind} {c d : Cube k} {serial : Nat}

/-- Whatever an operation gives, it folds into the views of its kind. -/
theorem Derivation.folds (hfits : c.Fits) (hc : c.Reduced) (op : Derivation)
    (hmake : op.make serial c = .ok d) : Cube.Folds op.viewKind c d := by
  cases op with
  | transpose =>
    cases hmake
    exact Cube.folds_transpose c
  | roll shifts => exact Cube.folds_roll hmake
  | rollAxes shifts axes => exact Cube.folds_roll (Cube.roll_of_rollAxes hmake)
  | rollFlat shift =>
    cases hmake
    exact Cube.folds_rollFlat hfits
  | slice accessors => exact Cube.folds_slice hfits hc hmake
  | mask marks canonical => exact Cube.folds_mask hfits hc canonical hmake
  | reshape shape => exact Cube.folds_reshape hmake

/-! ## Chains of operations -/

variable {ops : List Derivation}

namespace Layered

variable {k₀ : Kind} {slot : Nat} {dims : List Dimension}

theorem reduced (h : Layered (.leaf k₀ slot dims) c) : c.Reduced := by
  induction h with
  | root => exact Cube.reduced_of_views_eq_nil rfl
  | derive beneath make ih =>
    exact (Derivation.folds beneath.fits_and_bottom.1 ih _ make).reduced ih
  | convert _ _ => exact Cube.reduced_of_views_eq_nil rfl

end Layered

end Orthotope
