import Orthotope.Proofs.Cube.Origin
import Orthotope.Proofs.Dimension.Length
import Orthotope.Proofs.View.Compose

/-!
# What deriving a cube does

A `Derivation` is one of the operations that make a view of a cube, with its arguments. What it is
documented to do is said by two functions that know nothing of views: `Derivation.shape` gives the
shape of the result, and `Derivation.place` the coordinates that the coordinates of the result show.

Each operation does that (`Derivation.presents`), whether it makes a view, folds itself into one, gives
the cube beneath or gives the cube itself. The cube need only fit; so does the result. There is one
lemma for each operation, in which the cases are those of its definition.
-/

namespace Orthotope

namespace BitSet

/-- The marked positions below the size. -/
def marked (s : BitSet) : List Nat := (List.range s.size).filter s.mem

end BitSet

/-- An operation that makes a view of a cube. -/
inductive Derivation where
  /-- Reverses the order of the axes. -/
  | transpose
  /-- Shifts each axis in a circle. -/
  | roll (shifts : List Int)
  /-- Shifts some axes in a circle, each by the shift at its place. -/
  | rollAxes (shifts : List Int) (axes : List Nat)
  /-- Shifts the elements in row-major order in a circle. -/
  | rollFlat (shift : Int)
  /-- Keeps part of each axis. -/
  | slice (accessors : List Accessor)
  /-- Keeps the marked positions of the first axis. -/
  | mask (marks : BitSet) (canonical : marks.Canonical)
  /-- Keeps all elements in order and changes the shape. -/
  | reshape (shape : List Nat)

namespace Derivation

variable {k : Kind}

/-- Does an operation. -/
def make (serial : Nat) (c : Cube k) : Derivation → Except Error (Cube k)
  | transpose => .ok (c.transpose serial)
  | roll shifts => c.roll serial shifts
  | rollAxes shifts axes => c.rollAxes serial shifts axes
  | rollFlat shift => .ok (c.rollFlat serial shift)
  | slice accessors => c.slice serial accessors
  | mask marks _ => c.mask serial marks
  | reshape shape => c.reshape serial shape

/-- Coordinate `i` of an axis that is rolled by `s` shows coordinate `i - s`, counted around the
axis. -/
def rolled : (shape : List Nat) → List Int → List Nat → List Nat
  | n :: shape, s :: shifts, i :: coords =>
    (((i : Int) - s) % n).toNat :: rolled shape shifts coords
  | _, _, _ => []

/-- The shift that is given for an axis. There is none for an axis that is not rolled. -/
def shiftOf (pairs : List (Int × Nat)) (axis : Nat) : Int :=
  ((pairs.find? fun pair => pair.2 = axis).map Prod.fst).getD 0

/-- The coordinates beneath a table of positions of the first axis. -/
def lookUp (table : List Nat) : List Nat → List Nat
  | i :: coords => table.getD i 0 :: coords
  | [] => []

/-- The shape that an operation gives to a cube of the given shape, if it succeeds. -/
def shape (shape : List Nat) : Derivation → List Nat
  | transpose => shape.reverse
  | roll _ | rollAxes .. | rollFlat _ => shape
  | slice accessors =>
    match Accessor.resolveAll shape accessors with
    | .ok axes => AxisSlice.counts axes
    | .error _ => shape
  | mask marks _ => marks.marked.length :: shape.tail
  | reshape shape' => shape'

/-- The coordinates of a cube of the given shape that the coordinates of the result show. -/
def place (shape : List Nat) : Derivation → List Nat → List Nat
  | transpose, cs => cs.reverse
  | roll shifts, cs => rolled shape shifts cs
  | rollAxes shifts axes, cs =>
    rolled shape ((List.range shape.length).map (shiftOf (shifts.zip axes))) cs
  | rollFlat shift, cs =>
    unravel shape ((((offset shape cs : Nat) : Int) - shift) % (sizeOf shape : Nat)).toNat
  | slice accessors, cs =>
    match Accessor.resolveAll shape accessors with
    | .ok axes => AxisSlice.place axes cs
    | .error _ => cs
  | mask marks _, cs => lookUp marks.marked cs
  | reshape shape', cs => unravel shape (offset shape' cs)

end Derivation

namespace Cube

variable {k : Kind} {c : Cube k} {serial : Nat}

/-! ## Transposing -/

theorem presents_transpose (h : c.Fits) :
    Presents (c.transpose serial) c c.shape.reverse List.reverse := by
  unfold transpose
  split
  · next hrank =>
    have hrev : ∀ {xs : List Nat}, xs.length ≤ 1 → xs.reverse = xs
      | [], _ | [_], _ => rfl
    have hlen : c.shape.length ≤ 1 := Nat.le_trans (Nat.le_of_eq (List.length_map _)) hrank
    rw [hrev hlen]
    refine Presents.same h fun cs hc => (hrev ?_).symm
    exact Nat.le_trans (Nat.le_of_eq hc.length_eq) hlen
  · split
    · next s inner dims _ =>
      have hshape : shapeOf dims = inner.shape.reverse := h.2
      have hrev : (shapeOf dims).reverse = inner.shape := by rw [hshape, List.reverse_reverse]
      rw [show (view s inner dims .transposed).shape = shapeOf dims from rfl, hrev]
      have hwithin : ∀ cs, Within inner.shape cs → Within (shapeOf dims) cs.reverse := by
        intro cs hc
        rw [hshape]
        exact hc.reverse
      refine Presents.factor h (Presents.refl h.1) hwithin fun cs hc => ?_
      rw [h.2.shown_of_not_flat rfl (hwithin cs hc)]
      exact List.reverse_reverse cs
    · have hshape : shapeOf c.dims.reverse = c.shape.reverse := List.map_reverse
      rw [← hshape]
      have hfit : (c.viewOver c.dims.reverse .transposed).Fits := hshape
      exact Presents.fresh h hfit fun cs hc => hfit.shown_of_not_flat rfl hc

/-! ## Rolling -/

theorem presents_rollBy {shifts : List Nat} (h : c.Fits)
    (hshifts : List.Forall₂ ShiftFits shifts c.shape) :
    Presents (c.rollBy serial shifts) c c.shape fun cs => unrollAxes cs shifts c.shape := by
  unfold rollBy
  split
  · next hzero =>
    refine Presents.same h fun cs hc => ?_
    exact (unrollAxes_of_all_zero hc hshifts.length_eq hzero).symm
  · split
    · next s inner dims current =>
      obtain ⟨hshape, hcurrent⟩ : shapeOf dims = inner.shape ∧
        List.Forall₂ ShiftFits current (shapeOf dims) := h.2
      have hshifts : List.Forall₂ ShiftFits shifts (shapeOf dims) := hshifts
      have hcombined := combineShifts_fit hcurrent hshifts
      have hwithin : ∀ cs, Within (shapeOf dims) cs →
          Within (shapeOf dims) (unrollAxes cs shifts (shapeOf dims)) :=
        fun cs hc => within_unrollAxes hshifts hc
      -- The view beneath takes the coordinates that the roll shows to those of the combined roll.
      have hplace : ∀ cs, Within (shapeOf dims) cs →
          (inner.viewOver dims (.rolled current)).shown (unrollAxes cs shifts (shapeOf dims)) =
            unrollAxes cs (combineShifts current shifts (shapeOf dims)) (shapeOf dims) := by
        intro cs hc
        rw [h.2.shown_of_not_flat rfl (hwithin cs hc)]
        exact unrollAxes_combineShifts hc hcurrent hshifts
      refine Presents.factor h (?_ : Presents _ inner (shapeOf dims) _) hwithin hplace
      dsimp only
      split
      · next hzero =>
        rw [hshape] at hcombined hzero ⊢
        refine Presents.same h.1 fun cs hc => ?_
        exact (unrollAxes_of_all_zero hc hcombined.length_eq hzero).symm
      · have hfit : (inner.viewOver dims
          (.rolled (combineShifts current shifts (shapeOf dims)))).Fits := ⟨hshape, hcombined⟩
        exact Presents.fresh h.1 hfit fun cs hc => hfit.shown_of_not_flat rfl hc
    · have hfit : (c.viewOver c.dims (.rolled shifts)).Fits := ⟨rfl, hshifts⟩
      exact Presents.fresh h hfit fun cs hc => hfit.shown_of_not_flat rfl hc

/-- Reduced shifts do what the shifts are documented to do. -/
theorem rolled_eq_unrollAxes {shape cs : List Nat} {shifts : List Int} (hc : Within shape cs)
    (hlen : shifts.length = shape.length) : Derivation.rolled shape shifts cs =
      unrollAxes cs (normalizeShifts shifts shape) shape := by
  induction shape generalizing cs shifts with
  | nil => cases cs <;> cases shifts <;> rfl
  | cons n shape ih =>
    cases cs with
    | nil => exact hc.elim
    | cons i cs =>
      cases shifts with
      | nil => cases hlen
      | cons s shifts =>
        rw [Derivation.rolled, normalizeShifts, unrollAxes, unroll_normalizeShift hc.1,
          ih hc.2 (Nat.succ.inj hlen)]

theorem presents_roll {shifts : List Int} {d : Cube k} (h : c.Fits)
    (hmake : c.roll serial shifts = .ok d) :
    Presents d c c.shape (Derivation.rolled c.shape shifts) := by
  unfold roll at hmake
  split at hmake
  · next hrank =>
    cases hmake
    have hlen : shifts.length = c.shape.length := hrank.trans (List.length_map _).symm
    refine (presents_rollBy h (normalizeShifts_fit hlen)).congr fun cs hc => ?_
    exact (rolled_eq_unrollAxes hc hlen).symm
  · cases hmake

/-- Spreading shifts puts each to its axis and leaves the axes met before alone. -/
theorem getD_spreadShifts {rank : Nat} {seen : List Nat} {pairs : List (Int × Nat)}
    {all all' : List Int} (hlen : all.length = rank)
    (h : spreadShifts rank seen all pairs = .ok all') :
    all'.length = rank ∧ ∀ axis, all'.getD axis 0 =
      if axis ∈ seen then all.getD axis 0
      else ((pairs.find? fun pair => pair.2 = axis).map Prod.fst).getD (all.getD axis 0) := by
  induction pairs generalizing seen all with
  | nil =>
    cases h
    exact ⟨hlen, fun axis => by simp⟩
  | cons pair pairs ih =>
    obtain ⟨s, a⟩ := pair
    unfold spreadShifts at h
    split at h
    · cases h
    next hrank =>
    split at h
    · cases h
    next hseen =>
    obtain ⟨hlen', hget⟩ := ih (by rw [List.length_set, hlen]) h
    refine ⟨hlen', fun axis => ?_⟩
    rw [hget]
    by_cases ha : axis = a
    · subst ha
      have hlt : axis < all.length := hlen ▸ Nat.lt_of_not_le hrank
      simp [hseen, hlt]
    · simp [ha, Ne.symm ha]

/-- Rolling some axes is rolling all of them, each by the shift that is given for it. -/
theorem roll_of_rollAxes {shifts : List Int} {axes : List Nat} {d : Cube k}
    (hmake : c.rollAxes serial shifts axes = .ok d) :
    c.roll serial ((List.range c.rank).map (Derivation.shiftOf (shifts.zip axes))) = .ok d := by
  unfold rollAxes at hmake
  split at hmake
  · cases hmake
  obtain ⟨-, -, hmake⟩ := bind_eq_ok hmake
  obtain ⟨all, hall, hmake⟩ := bind_eq_ok hmake
  obtain ⟨hlen, hget⟩ := getD_spreadShifts (List.length_replicate) hall
  have heq : all = (List.range c.rank).map (Derivation.shiftOf (shifts.zip axes)) := by
    refine List.ext_getElem (by simp [hlen]) fun axis hlt _ => ?_
    have haxis := hget axis
    have hzero : (List.replicate c.rank (0 : Int)).getD axis 0 = 0 := by
      rw [List.getD_eq_getElem?_getD, List.getElem?_replicate]
      split <;> rfl
    rw [if_neg List.not_mem_nil, hzero] at haxis
    rw [List.getElem_map, List.getElem_range, Derivation.shiftOf, ← haxis,
      List.getD_eq_getElem?_getD, List.getElem?_eq_getElem hlt, Option.getD_some]
  rw [← heq]
  exact hmake

theorem presents_rollAxes {shifts : List Int} {axes : List Nat} {d : Cube k} (h : c.Fits)
    (hmake : c.rollAxes serial shifts axes = .ok d) :
    Presents d c c.shape (Derivation.place c.shape (.rollAxes shifts axes)) := by
  have hroll := presents_roll h (roll_of_rollAxes hmake)
  rw [show c.rank = c.shape.length from (List.length_map _).symm] at hroll
  exact hroll

/-! ## Rolling in row-major order -/

theorem shown_flatRolled {source shape cs : List Nat} {s : Nat} (h : shape = source) :
    (⟨source, shape, .flatRolled s⟩ : View).shown cs = unrollFlat cs s shape := by
  subst h
  rfl

theorem presents_rollFlat {shift : Int} (h : c.Fits) :
    Presents (c.rollFlat serial shift) c c.shape (Derivation.place c.shape (.rollFlat shift)) := by
  suffices hreduced : Presents (c.rollFlat serial shift) c c.shape fun cs =>
      unrollFlat cs (normalizeShift shift c.size) c.shape by
    refine hreduced.congr fun cs hc => ?_
    have hlt : offset c.shape cs < c.size := offset_lt hc
    show unravel c.shape (unroll (offset c.shape cs) (normalizeShift shift c.size) c.size) = _
    rw [unroll_normalizeShift hlt]
    rfl
  have hfits := normalizeShift_fits shift c.size
  unfold rollFlat
  dsimp only
  generalize normalizeShift shift c.size = reduced at hfits ⊢
  split
  · next hzero =>
    refine Presents.same h fun cs hc => ?_
    rw [hzero, unrollFlat_zero hc]
  next hne =>
  have hlt : reduced < c.size := hfits.resolve_right fun hz => hne hz.2
  split
  · next s inner dims current =>
    obtain ⟨hshape, hcurrent⟩ : shapeOf dims = inner.shape ∧ current < sizeOf (shapeOf dims) := h.2
    have hlt : reduced < sizeOf (shapeOf dims) := hlt
    have hplace : ∀ cs, Within (shapeOf dims) cs →
        (inner.viewOver dims (.flatRolled current)).shown (unrollFlat cs reduced (shapeOf dims)) =
          unrollFlat cs (addShifts current reduced (sizeOf (shapeOf dims))) (shapeOf dims) := by
      intro cs hc
      rw [← unrollFlat_unrollFlat hc hcurrent hlt]
      exact shown_flatRolled hshape
    refine Presents.factor h (?_ : Presents _ inner (shapeOf dims) _)
      (fun cs hc => within_unrollFlat hc _) hplace
    split
    · next hzero =>
      have hzero : addShifts current reduced (sizeOf (shapeOf dims)) = 0 := hzero
      rw [hzero, hshape]
      exact Presents.same h.1 fun cs hc => (unrollFlat_zero hc).symm
    · next hne =>
      have hsum : addShifts current reduced (sizeOf (shapeOf dims)) < sizeOf (shapeOf dims) :=
        (addShifts_fits (.inl hcurrent) (.inl hlt)).resolve_right fun hz => hne hz.2
      have hfit : (inner.viewOver dims
          (.flatRolled (addShifts current reduced (sizeOf (shapeOf dims))))).Fits := ⟨hshape, hsum⟩
      exact Presents.fresh h.1 hfit fun cs hc => shown_flatRolled hshape
  · have hfit : (c.viewOver c.dims (.flatRolled reduced)).Fits := ⟨rfl, hlt⟩
    exact Presents.fresh h hfit fun cs hc => rfl

/-! ## Slicing -/

theorem rank_eq (c : Cube k) : c.rank = c.shape.length := (List.length_map _).symm

/-- A resolved slice is a view of the cube. -/
theorem sliceBy_eq_ok {axes : List AxisSlice} {d : Cube k} (h : c.sliceBy serial axes = .ok d) :
    ∃ dims, Dimension.slice c.dims axes = .ok dims ∧ d = view serial c dims (.sliced axes) := by
  obtain ⟨dims, hdims, h⟩ := bind_eq_ok h
  cases h
  exact ⟨dims, hdims, rfl⟩

/-- Resolved accessors that fit the axes slice the cube as they say, and cannot fail. -/
theorem presents_sliceBy (serial : Nat) {axes : List AxisSlice} (h : c.Fits)
    (haxes : AxisSlice.FitsAll axes c.shape) : ∃ d, c.sliceBy serial axes = .ok d ∧
      Presents d c (AxisSlice.counts axes) (AxisSlice.place axes) := by
  obtain ⟨dims, hdims, hshape⟩ := Dimension.slice_of_fits haxes
  refine ⟨view serial c dims (.sliced axes), by rw [sliceBy, hdims]; rfl, ?_⟩
  have hfit : (c.viewOver dims (.sliced axes)).Fits := ⟨haxes, hshape⟩
  rw [← hshape]
  exact Presents.fresh h hfit fun cs hc => hfit.shown_of_not_flat rfl hc

/-- A slice fails only if it has too many accessors or one of them cannot be resolved. -/
theorem presents_slice (serial : Nat) {accessors : List Accessor} {axes : List AxisSlice} (h : c.Fits)
    (hrank : accessors.length ≤ c.rank) (haxes : Accessor.resolveAll c.shape accessors = .ok axes) :
    ∃ d, c.slice serial accessors = .ok d ∧
      Presents d c (AxisSlice.counts axes) (AxisSlice.place axes) := by
  have hfits := Accessor.resolveAll_fits haxes
  unfold slice
  rw [if_neg (Nat.not_lt.2 hrank), haxes]
  show ∃ d, (if axes = c.shape.map AxisSlice.whole then _ else _) = _ ∧ _
  split
  · next hwhole =>
    refine ⟨c, rfl, ?_⟩
    rw [hwhole, AxisSlice.counts_map_whole]
    exact Presents.same h fun cs hc => (AxisSlice.place_map_whole hc.length_eq).symm
  split
  · next s inner dims current _ =>
    obtain ⟨hcurrent, hshape⟩ :
      AxisSlice.FitsAll current inner.shape ∧ shapeOf dims = AxisSlice.counts current := h.2
    have hfits : AxisSlice.FitsAll axes (shapeOf dims) := hfits
    obtain ⟨hcomposed, hcounts⟩ := hcurrent.compose (hshape ▸ hfits)
    obtain ⟨d, hd, hpresents⟩ := presents_sliceBy serial h.1 hcomposed
    rw [hcounts] at hpresents
    refine ⟨d, hd, Presents.factor h hpresents (fun cs hc => hfits.within_place hc) fun cs hc => ?_⟩
    rw [h.2.shown_of_not_flat rfl (hfits.within_place hc)]
    exact hcurrent.place_compose (hshape ▸ hfits) hc
  · exact presents_sliceBy serial h hfits

theorem resolved_of_slice {accessors : List Accessor} {d : Cube k}
    (hmake : c.slice serial accessors = .ok d) :
    ∃ axes, Accessor.resolveAll c.shape accessors = .ok axes ∧ accessors.length ≤ c.rank := by
  rcases Nat.lt_or_ge c.rank accessors.length with hrank | hrank
  · rw [slice, if_pos hrank] at hmake
    cases hmake
  · rw [slice, if_neg (Nat.not_lt.2 hrank)] at hmake
    obtain ⟨axes, haxes, -⟩ := bind_eq_ok hmake
    exact ⟨axes, haxes, hrank⟩

/-! ## Masking -/

theorem within_lookUp {table rest cs : List Nat} {n : Nat} (hlt : ∀ p ∈ table, p < n)
    (hc : Within (table.length :: rest) cs) : Within (n :: rest) (Derivation.lookUp table cs) := by
  cases cs with
  | nil => exact hc.elim
  | cons i cs =>
    refine ⟨?_, hc.2⟩
    show table.getD i 0 < n
    rw [List.getD_eq_getElem?_getD, List.getElem?_eq_getElem hc.1, Option.getD_some]
    exact hlt _ (List.getElem_mem _)

/-- A new view with a table of positions shows what the table says. -/
theorem presents_masked (serial : Nat) {table rest : List Nat} {n : Nat} {dims : List Dimension} (h : c.Fits)
    (hshape : c.shape = n :: rest) (hdims : shapeOf dims = table.length :: rest)
    (hasc : table.Pairwise (· < ·)) (hlt : ∀ p ∈ table, p < n) :
    Presents (view serial c dims (.masked table.toArray)) c (table.length :: rest)
      (Derivation.lookUp table) := by
  have hfit : (c.viewOver dims (.masked table.toArray)).Fits := ⟨n, rest, hshape, hdims, hasc, hlt⟩
  rw [← hdims]
  refine Presents.fresh h hfit fun cs hc => ?_
  rw [hfit.shown_of_not_flat rfl hc]
  cases cs with
  | nil => rfl
  | cons i cs =>
    show table.toArray.getD i 0 :: cs = table.getD i 0 :: cs
    rw [Array.getD_eq_getD_getElem?, List.getElem?_toArray, List.getD_eq_getElem?_getD]

/-- Entries of a table looked up in another are the entries of the table of both. -/
theorem getD_lookUp {table : Array Nat} {marked : List Nat} {i : Nat} (hi : i < marked.length) :
    table.getD (marked.getD i 0) 0 = (marked.map fun p => table.getD p 0).getD i 0 := by
  simp [List.getD_eq_getElem?_getD, List.getElem?_eq_getElem hi]

theorem presents_mask {marks : BitSet} {d : Cube k} (h : c.Fits) (hmarks : marks.Canonical)
    (hmake : c.mask serial marks = .ok d) :
    Presents d c (marks.marked.length :: c.shape.tail) (Derivation.lookUp marks.marked) := by
  rw [show marks.marked = marks.positions from hmarks.positions_eq.symm]
  unfold mask at hmake
  split at hmake
  · cases hmake
  next first rest hdims =>
  have hshape : c.shape = first.length :: shapeOf rest := congrArg shapeOf hdims
  rw [hshape, List.tail_cons]
  split at hmake
  · cases hmake
  next hsize =>
  have hsize : marks.size = first.length := Decidable.not_not.1 hsize
  have hasc := BitSet.pairwise_positions marks
  have hlt : ∀ p ∈ marks.positions, p < first.length := fun p hp =>
    hsize ▸ (hmarks.mem_positions_iff.1 hp).1
  have hdims' : shapeOf (first.mask marks :: rest) = marks.positions.length :: shapeOf rest :=
    congrArg (· :: shapeOf rest) (first.length_mask hmarks hsize)
  split at hmake
  · next hfull =>
    cases hmake
    rw [hmarks.positions_of_isFull hfull, List.length_range, hsize, ← hshape]
    refine Presents.same h fun cs hc => ?_
    cases cs with
    | nil => rfl
    | cons i cs =>
      have hi : i < first.length := by
        rw [hshape] at hc
        exact hc.1
      simp [Derivation.lookUp, List.getD_eq_getElem?_getD, hi]
  split at hmake
  · next s inner dims current =>
    cases hmake
    obtain ⟨n, rest', hinner, hcurrent, hasc', hlt'⟩ := View.fits_masked.1 h.2
    obtain ⟨hlength, rfl⟩ := List.cons.inj (hshape.symm.trans hcurrent)
    have hlt : ∀ p ∈ marks.positions, p < current.size := fun p hp => hlength ▸ hlt p hp
    obtain ⟨htable, hbound⟩ := masked_table_compose hasc' hlt' hasc hlt
    have hnew := presents_masked serial h.1 hinner
      (hdims'.trans (by rw [List.length_map])) htable hbound
    rw [List.length_map] at hnew
    have hwithin : ∀ cs, Within (marks.positions.length :: shapeOf rest) cs →
        Within (shapeOf dims) (Derivation.lookUp marks.positions cs) := by
      intro cs hc
      rw [hcurrent]
      exact within_lookUp hlt hc
    refine Presents.factor h hnew hwithin fun cs hc => ?_
    rw [h.2.shown_of_not_flat rfl (hwithin cs hc)]
    cases cs with
    | nil => rfl
    | cons i cs => exact congrArg (· :: cs) (getD_lookUp hc.1)
  · cases hmake
    exact presents_masked serial h hshape hdims' hasc hlt

/-! ## Reshaping -/

/-- A cube with another shape, without looking at what the cube is. -/
theorem presents_reshapeOver {shape : List Nat} {d : Cube k} (serial : Nat) (h : c.Fits)
    (hsize : sizeOf shape = c.size) (hmake : (if shape = c.shape then .ok c
      else .ok (view serial c (Dimension.ofShape shape) .reshaped) : Except Error (Cube k)) = .ok d) :
    Presents d c shape fun cs => unravel c.shape (offset shape cs) := by
  split at hmake
  · next hsame =>
    cases hmake
    rw [hsame]
    exact Presents.same h fun cs hc => (unravel_offset hc).symm
  · cases hmake
    have hdims := shapeOf_ofShape shape
    have hfit : (c.viewOver (Dimension.ofShape shape) .reshaped).Fits :=
      (congrArg sizeOf hdims).trans hsize
    have hnew := Presents.view serial h hfit
    rw [hdims] at hnew
    refine hnew.congr fun cs _ => ?_
    show unravel c.shape (offset (shapeOf (Dimension.ofShape shape)) cs) = _
    rw [hdims]

theorem presents_reshape {shape : List Nat} {d : Cube k} (h : c.Fits)
    (hmake : c.reshape serial shape = .ok d) :
    Presents d c shape fun cs => unravel c.shape (offset shape cs) := by
  unfold reshape at hmake
  split at hmake
  · cases hmake
  next hsize =>
  have hsize : sizeOf shape = c.size := Decidable.not_not.1 hsize
  split at hmake
  · next hsame =>
    refine presents_reshapeOver serial h hsize ?_
    rw [if_pos hsame]
    exact hmake
  cases c with
  | leaf | cast => exact presents_reshapeOver serial h hsize hmake
  | view s inner dims transform =>
    cases transform with
    | reshaped =>
      have hbeneath : sizeOf (shapeOf dims) = sizeOf inner.shape := h.2
      have hpos : ∀ cs, Within shape cs → offset shape cs < sizeOf (shapeOf dims) :=
        fun cs hc => Nat.lt_of_lt_of_eq (offset_lt hc) hsize
      refine Presents.factor h (presents_reshapeOver serial h.1 (hsize.trans hbeneath) hmake)
        (fun cs hc => within_unravel (Nat.zero_lt_of_lt (hpos cs hc))) fun cs hc => ?_
      exact congrArg (unravel inner.shape) (offset_unravel (hpos cs hc))
    | _ => exact presents_reshapeOver serial h hsize hmake

/-! ## All operations -/

end Cube

/-- An operation that succeeds on a cube that fits does what it is documented to do. -/
theorem Derivation.presents {k : Kind} {c d : Cube k} {serial : Nat} (h : c.Fits) (op : Derivation)
    (hmake : op.make serial c = .ok d) : Cube.Presents d c (op.shape c.shape) (op.place c.shape) := by
  cases op with
  | transpose =>
    cases hmake
    exact Cube.presents_transpose h
  | roll shifts => exact Cube.presents_roll h hmake
  | rollAxes shifts axes => exact Cube.presents_rollAxes h hmake
  | rollFlat shift =>
    cases hmake
    exact Cube.presents_rollFlat h
  | slice accessors =>
    obtain ⟨axes, haxes, hrank⟩ := Cube.resolved_of_slice hmake
    obtain ⟨d', hd', hpresents⟩ := Cube.presents_slice serial h hrank haxes
    obtain rfl : d' = d := Except.ok.inj (hd'.symm.trans hmake)
    have hshape : shape c.shape (.slice accessors) = AxisSlice.counts axes := by
      rw [shape, haxes]
    have hplace : place c.shape (.slice accessors) = AxisSlice.place axes := by
      funext cs
      rw [place, haxes]
    rw [hshape, hplace]
    exact hpresents
  | mask marks canonical => exact Cube.presents_mask h canonical hmake
  | reshape shape => exact Cube.presents_reshape h hmake

end Orthotope
