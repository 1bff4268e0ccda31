import Mathlib.Algebra.Group.Nat.Defs
import Orthotope.Machine.Derive
import Orthotope.Proofs.Machine.Access
import Orthotope.Proofs.Cube.Folding

/-!
# Deriving cubes as it is computed

`Derivation.makeIn` does an operation in a given arithmetic, with its steps checked: entries of tables,
differences, marks of positions. The size of a view that it makes is computed, and so are the shifts and
steps of a view that others are folded into.

Each operation is gone through once, for two things that hold of it (`Cube.Makes`). On a cube that fits,
overflow is all that can go wrong beyond what `Derivation.make` says, and what a checked operation makes
has sizes that fit. Both then hold of every operation (`Derivation.makes_makeIn`). Shifts do not
overflow on axes of at most 2^63 positions (`Cube.Fits.makes_rollByIn`).
-/

namespace Orthotope

open Arithmetic

variable {fits : Prop} {m : Arithmetic} {k : Kind} {serial : Nat}

/-! ## Shifts -/

theorem agree_addShiftsIn {a b n : Nat} (hfits : fits → a + b ≤ maxPosition) :
    Agree fits (fun m => addShiftsIn m a b n) (.ok (addShifts a b n)) := by
  unfold addShiftsIn addShifts
  by_cases hn : n = 0
  · simp only [if_pos hn]
    exact .const _
  simp only [if_neg hn]
  refine (agree_add hfits).andThen ?_
  by_cases hle : n ≤ a + b
  · simp only [if_pos hle]
    exact agree_sub hle
  · simp only [if_neg hle]
    exact .const _

/-- On an axis of up to 2^63 positions, shifts that are reduced can be added in 64 bits. -/
theorem ShiftFits.add_le {a b n : Nat} (ha : ShiftFits a n) (hb : ShiftFits b n) (hn : n ≤ 2 ^ 63) :
    a + b ≤ maxPosition := by
  unfold maxPosition
  rcases ha with ha | ⟨rfl, rfl⟩
  · rcases hb with hb | ⟨rfl, rfl⟩
    · omega
    · omega
  · have := hb.le
    omega

theorem agree_combineShiftsIn {as bs shape : List Nat} (ha : List.Forall₂ ShiftFits as shape)
    (hb : List.Forall₂ ShiftFits bs shape) (hfits : fits → ∀ n ∈ shape, n ≤ 2 ^ 63) :
    Agree fits (fun m => combineShiftsIn m as bs shape) (.ok (combineShifts as bs shape)) := by
  induction ha generalizing bs with
  | nil => exact .const _
  | cons hfirst _ ih =>
    obtain ⟨b, bs, hsecond, hrest, rfl⟩ := List.forall₂_cons_right_iff.1 hb
    have hbelow := ih hrest fun hf n hn => hfits hf n (List.mem_cons_of_mem _ hn)
    exact (agree_addShiftsIn fun hf => hfirst.add_le hsecond (hfits hf _ List.mem_cons_self)).andThen
      (hbelow.map (_ :: ·))

theorem spreadShiftsGuarded_eq {rank : Nat} {all : List Int} (h : all.length = rank)
    (seen : List Nat) (pairs : List (Int × Nat)) :
    spreadShiftsGuarded rank seen all pairs = spreadShifts rank seen all pairs := by
  induction pairs generalizing seen all with
  | nil => rfl
  | cons pair pairs ih =>
    rw [spreadShiftsGuarded, spreadShifts]
    split
    · rfl
    · next haxis =>
      have hplace : ¬all.length ≤ pair.2 := h ▸ haxis
      rw [if_neg hplace, ih (by rw [List.length_set, h])]

/-! ## Slices -/

theorem AxisSlice.agree_composeIn {inner outer : List AxisSlice} (h : FitsAll outer (counts inner)) :
    Agree False (fun m => composeIn m inner outer) (.ok (compose inner outer)) := by
  induction inner generalizing outer with
  | nil => exact .const _
  | cons axis inner ih =>
    cases axis with
    | fixed c => exact (ih h).map (fixed c :: ·)
    | range start step count =>
      obtain ⟨axis, outer, -, hrest, rfl⟩ := List.forall₂_cons_right_iff.1 h
      have hbelow := ih hrest
      cases axis with
      | fixed c =>
        have hrest := hbelow.map (fixed (start + c * step) :: ·)
        exact (agree_mul False.elim).andThen ((agree_add False.elim).andThen hrest)
      | range start' step' count' =>
        have hrest := hbelow.map (range (start + start' * step) (step * step') count' :: ·)
        have hstride : Agree False (fun m => m.mul step step') (.ok (step * step')) :=
          agree_mul False.elim
        exact (agree_mul False.elim).andThen ((agree_add False.elim).andThen (hstride.andThen hrest))

namespace Dimension

theorem agree_everyIn (d : Dimension) (start step count : Nat) :
    Agree False (fun m => d.everyIn m start step count) (d.every start step count) := by
  have hmarks : Agree False
      (fun m => (List.range count).foldlM (fun marks i => do
        let p ← m.add start (← m.mul i step)
        marks.insert p) (BitSet.empty d.length))
      ((BitSet.empty d.length).insertAll ((List.range count).map fun i => start + i * step)) := by
    rw [BitSet.insertAll, List.foldlM_map]
    refine Agree.foldlM (fun marks i => ?_) _ _
    exact (agree_mul False.elim).andThen ((agree_add False.elim).andThen (.const _))
  exact hmarks.bind fun marks _ => .const _

theorem agree_sliceIn (dims : List Dimension) (axes : List AxisSlice) :
    Agree False (fun m => sliceIn m dims axes) (slice dims axes) := by
  induction dims generalizing axes with
  | nil => cases axes <;> exact .const _
  | cons d dims ih =>
    rcases axes with _ | ⟨c | ⟨start, step, count⟩, axes⟩
    · exact .const _
    · exact ih axes
    · have hrest (first : Dimension) : Agree False (fun m => do return first :: (← sliceIn m dims axes))
          (do return first :: (← slice dims axes)) :=
        (ih axes).bind fun rest _ => .const (.ok (first :: rest))
      by_cases hstep : step = 1
      · simp only [sliceIn, slice, if_pos hstep]
        refine (agree_add False.elim).andThen ?_
        exact (Agree.const _).bind fun first _ => hrest first
      · simp only [sliceIn, slice, if_neg hstep]
        exact (d.agree_everyIn start step count).bind fun first _ => hrest first

end Dimension

/-! ## Operations -/

namespace Cube

variable {c d inner : Cube k} {dims : List Dimension} {transform : Transform}

/-- How an operation on a cube is computed: it agrees with what is described, and if the sizes of the
cube can be computed in 64 bits, so can those of what a checked computation makes. -/
structure Makes (c : Cube k) (fits : Prop) (f : Arithmetic → Except Error (Cube k))
    (x : Except Error (Cube k)) : Prop where
  agree : Agree fits f x
  sized : c.Sized → ∀ d, f .checked = .ok d → d.Sized

/-- What an operation makes without arithmetic. -/
theorem Makes.ok (h : c.Sized → d.Sized) : c.Makes fits (fun _ => .ok d) (.ok d) :=
  ⟨.const _, fun hc _ hd => Except.ok.inj hd ▸ h hc⟩

theorem Makes.error (e : Error) : c.Makes fits (fun _ => .error e) (.error e) := by
  refine ⟨.const _, fun _ d hd => ?_⟩
  cases hd

theorem Makes.mono {fits' : Prop} {f : Arithmetic → Except Error (Cube k)} {x : Except Error (Cube k)}
    (h : c.Makes fits f x) (himp : fits' → fits) : c.Makes fits' f x :=
  ⟨h.agree.mono himp, h.sized⟩

theorem Makes.bind {α : Type} {f : Arithmetic → Except Error α}
    {g : Arithmetic → α → Except Error (Cube k)} {x : Except Error α} {y : α → Except Error (Cube k)}
    (hf : Agree fits f x) (hg : ∀ a, x = .ok a → c.Makes fits (fun m => g m a) (y a)) :
    c.Makes fits (fun m => f m >>= g m) (x >>= y) := by
  refine ⟨hf.bind fun a ha => (hg a ha).agree, fun hc d hd => ?_⟩
  obtain ⟨a, ha, hd⟩ := bind_eq_ok hd
  exact (hg a (hf.of_checked ha).1).sized hc d hd

/-- What an operation makes of the result of a computation. -/
theorem Makes.after {α : Type} {f : Arithmetic → Except Error α}
    {g : Arithmetic → α → Except Error (Cube k)} {a : α} {y : Except Error (Cube k)}
    (hf : Agree fits f (.ok a)) (hg : c.Makes fits (fun m => g m a) y) :
    c.Makes fits (fun m => f m >>= g m) y := by
  refine Makes.bind (y := fun _ => y) hf fun a' ha => ?_
  cases ha
  exact hg

/-- A view is made unless its size overflows. -/
theorem makes_newView (serial : Nat) (inner : Cube k) (dims : List Dimension) (transform : Transform)
    (hinner : c.Sized → inner.Sized) :
    c.Makes (Measured (shapeOf dims)) (fun m => newView m serial inner dims transform)
      (.ok (view serial inner dims transform)) := by
  refine ⟨(agree_sizeIn_of_measured (shapeOf dims)).andThen (.const _), fun hc d hd => ?_⟩
  obtain ⟨n, hn, hd⟩ := bind_eq_ok hd
  cases hd
  exact ⟨hinner hc, measured_of_sizeIn hn⟩

/-- A cube is transposed as it is described, unless the size of the view overflows. -/
theorem makes_transposeIn (serial : Nat) (c : Cube k) :
    c.Makes (Measured c.shape.reverse) (fun m => c.transposeIn m serial) (.ok (c.transpose serial)) := by
  have hnew (c : Cube k) : c.Makes (Measured c.shape.reverse)
      (fun m => newView m serial c c.dims.reverse .transposed)
      (.ok (view serial c c.dims.reverse .transposed)) := by
    have hshape : shapeOf c.dims.reverse = c.shape.reverse := List.map_reverse
    exact hshape ▸ makes_newView serial c c.dims.reverse .transposed id
  unfold transposeIn transpose
  by_cases hrank : c.rank ≤ 1
  · simp only [if_pos hrank]
    exact .ok id
  simp only [if_neg hrank]
  cases c with
  | leaf | cast => exact hnew _
  | view s inner dims transform =>
    cases transform with
    | transposed => exact .ok And.left
    | _ => exact hnew _

/-- Rolls of axes with at most 2^63 positions are computed as they are described. -/
theorem Fits.makes_rollByIn (h : c.Fits) (hsized : c.Sized) {shifts : List Nat}
    (hshifts : List.Forall₂ ShiftFits shifts c.shape) (serial : Nat) :
    c.Makes (∀ n ∈ c.shape, n ≤ 2 ^ 63) (fun m => c.rollByIn m serial shifts)
      (.ok (c.rollBy serial shifts)) := by
  have hview (inner : Cube k) (hinner : c.Sized → inner.Sized) (transform : Transform) :
      c.Makes (∀ n ∈ c.shape, n ≤ 2 ^ 63) (fun m => newView m serial inner c.dims transform)
        (.ok (view serial inner c.dims transform)) :=
    (makes_newView serial inner c.dims transform hinner).mono fun _ => hsized.measured
  unfold rollByIn rollBy
  by_cases hzero : shifts.all (· = 0) = true
  · simp only [if_pos hzero]
    exact .ok id
  simp only [if_neg hzero]
  cases c with
  | leaf | cast => exact hview _ id _
  | view s inner dims transform =>
    cases transform with
    | rolled current =>
      have hcurrent : List.Forall₂ ShiftFits current (shapeOf dims) := h.2.2
      refine .after (agree_combineShiftsIn hcurrent hshifts id) ?_
      by_cases hall : (combineShifts current shifts (shapeOf dims)).all (· = 0) = true
      · simp only [if_pos hall]
        exact .ok And.left
      · simp only [if_neg hall]
        exact hview inner And.left _
    | _ => exact hview _ id _

theorem Fits.makes_rollIn (h : c.Fits) (hsized : c.Sized) (shifts : List Int) (serial : Nat) :
    c.Makes (∀ n ∈ c.shape, n ≤ 2 ^ 63) (fun m => c.rollIn m serial shifts) (c.roll serial shifts) := by
  unfold rollIn roll
  by_cases hlen : shifts.length = c.rank
  · simp only [if_pos hlen]
    exact h.makes_rollByIn hsized (normalizeShifts_fit (hlen.trans (List.length_map _).symm)) serial
  · simp only [if_neg hlen]
    exact .error _

theorem Fits.makes_rollAxesIn (h : c.Fits) (hsized : c.Sized) (shifts : List Int) (axes : List Nat)
    (serial : Nat) : c.Makes (∀ n ∈ c.shape, n ≤ 2 ^ 63) (fun m => c.rollAxesIn m serial shifts axes)
      (c.rollAxes serial shifts axes) := by
  unfold rollAxesIn rollAxes
  by_cases hlen : shifts.length ≠ axes.length
  · simp only [if_pos hlen]
    exact .error _
  simp only [if_neg hlen, spreadShiftsGuarded_eq List.length_replicate]
  exact .bind (.const _) fun all _ => h.makes_rollIn hsized all serial

/-- Rolls of at most 2^63 positions in row-major order are computed as they are described. -/
theorem Fits.makes_rollFlatIn (h : c.Fits) (hsized : c.Sized) (shift : Int) (serial : Nat) :
    c.Makes (c.size ≤ 2 ^ 63) (fun m => c.rollFlatIn m serial shift)
      (.ok (c.rollFlat serial shift)) := by
  have hview (inner : Cube k) (hinner : c.Sized → inner.Sized) (transform : Transform) :
      c.Makes (c.size ≤ 2 ^ 63) (fun m => newView m serial inner c.dims transform)
        (.ok (view serial inner c.dims transform)) :=
    (makes_newView serial inner c.dims transform hinner).mono fun _ => hsized.measured
  unfold rollFlatIn rollFlat
  simp only [hsized.sizeIn_eq]
  by_cases hzero : normalizeShift shift c.size = 0
  · simp only [if_pos hzero]
    exact .ok id
  simp only [if_neg hzero]
  cases c with
  | leaf | cast => exact hview _ id _
  | view s inner dims transform =>
    cases transform with
    | flatRolled current =>
      have hcurrent : ShiftFits current (view s inner dims (.flatRolled current)).size := .inl h.2.2
      refine .after (agree_addShiftsIn (hcurrent.add_le (normalizeShift_fits shift _))) ?_
      by_cases hall : addShifts current (normalizeShift shift (view s inner dims (.flatRolled current)).size)
          (view s inner dims (.flatRolled current)).size = 0
      · simp only [if_pos hall]
        exact .ok And.left
      · simp only [if_neg hall]
        exact hview inner And.left _
    | _ => exact hview _ id _

theorem makes_sliceByIn (serial : Nat) (d : Cube k) (axes : List AxisSlice) (hd : c.Sized → d.Sized) :
    c.Makes False (fun m => d.sliceByIn m serial axes) (d.sliceBy serial axes) :=
  .bind (Dimension.agree_sliceIn d.dims axes) fun dims _ =>
    (makes_newView serial d dims (.sliced axes) hd).mono False.elim

theorem Fits.makes_sliceIn (h : c.Fits) (accessors : List Accessor) (serial : Nat) :
    c.Makes False (fun m => c.sliceIn m serial accessors) (c.slice serial accessors) := by
  unfold sliceIn slice
  by_cases hrank : c.rank < accessors.length
  · simp only [if_pos hrank]
    exact .error _
  simp only [if_neg hrank]
  refine .bind (.const _) fun axes haxes => ?_
  by_cases hwhole : axes = c.shape.map AxisSlice.whole
  · simp only [if_pos hwhole]
    exact .ok id
  simp only [if_neg hwhole]
  cases c with
  | leaf | cast => exact makes_sliceByIn _ _ _ id
  | view s inner dims transform =>
    cases transform with
    | sliced current =>
      have hfits : AxisSlice.FitsAll axes (shapeOf dims) := Accessor.resolveAll_fits haxes
      rw [show shapeOf dims = AxisSlice.counts current from h.2.2] at hfits
      exact .after (AxisSlice.agree_composeIn hfits) (makes_sliceByIn _ _ _ And.left)
    | _ => exact makes_sliceByIn _ _ _ id

theorem Fits.makes_maskIn (h : c.Fits) {marks : BitSet} (hmarks : marks.Canonical) (serial : Nat) :
    c.Makes False (fun m => c.maskIn m serial marks) (c.mask serial marks) := by
  have hview (inner : Cube k) (hinner : c.Sized → inner.Sized) (dims : List Dimension)
      (transform : Transform) : c.Makes False (fun m => newView m serial inner dims transform)
        (.ok (view serial inner dims transform)) :=
    (makes_newView serial inner dims transform hinner).mono False.elim
  unfold maskIn mask
  cases hdims : c.dims with
  | nil => exact .error _
  | cons first rest =>
    dsimp only
    by_cases hsize : marks.size ≠ first.length
    · simp only [if_pos hsize]
      exact .error _
    simp only [if_neg hsize]
    by_cases hfull : marks.isFull = true
    · simp only [if_pos hfull]
      exact .ok id
    simp only [if_neg hfull]
    cases c with
    | leaf | cast => exact hview _ id _ _
    | view s inner dims transform =>
      cases transform with
      | masked current =>
        obtain ⟨n, rest', -, hcurrent, -, -⟩ := View.fits_masked.1 h.2
        have hdims : shapeOf dims = first.length :: shapeOf rest := congrArg shapeOf hdims
        obtain ⟨hlength, -⟩ := List.cons.inj (hdims.symm.trans hcurrent)
        have hlt : ∀ p ∈ marks.positions, p < current.size := fun p hp =>
          hlength ▸ Decidable.not_not.1 hsize ▸ (hmarks.mem_positions_iff.1 hp).1
        simp only [mapM_entryOf_eq hlt]
        exact hview inner And.left _ _
      | _ => exact hview _ id _ _

theorem makes_reshapeIn (hsized : c.Sized) (shape : List Nat) (serial : Nat) :
    c.Makes False (fun m => c.reshapeIn m serial shape) (c.reshape serial shape) := by
  unfold reshapeIn reshape
  simp only [hsized.sizeIn_eq]
  refine .after ((agree_sizeIn shape).mono False.elim) ?_
  by_cases hsize : sizeOf shape ≠ c.size
  · simp only [if_pos hsize]
    exact .error _
  simp only [if_neg hsize]
  by_cases hsame : shape = c.shape
  · simp only [if_pos hsame]
    exact .ok id
  simp only [if_neg hsame]
  have hover (inner : Cube k) (hinner : c.Sized → inner.Sized) : c.Makes False
      (fun m => if shape = inner.shape then .ok inner
        else newView m serial inner (Dimension.ofShape shape) .reshaped)
      (if shape = inner.shape then .ok inner
        else .ok (view serial inner (Dimension.ofShape shape) .reshaped)) := by
    by_cases hbeneath : shape = inner.shape
    · simp only [if_pos hbeneath]
      exact .ok hinner
    · simp only [if_neg hbeneath]
      exact (makes_newView serial inner _ .reshaped hinner).mono False.elim
  cases c with
  | leaf | cast => exact hover _ id
  | view s inner dims transform =>
    cases transform with
    | reshaped => exact hover inner And.left
    | _ => exact hover _ id

end Cube

namespace Derivation

variable {c d : Cube k}

/-- Does an operation in an arithmetic. -/
def makeIn (m : Arithmetic) (serial : Nat) (c : Cube k) : Derivation → Except Error (Cube k)
  | transpose => c.transposeIn m serial
  | roll shifts => c.rollIn m serial shifts
  | rollAxes shifts axes => c.rollAxesIn m serial shifts axes
  | rollFlat shift => c.rollFlatIn m serial shift
  | slice accessors => c.sliceIn m serial accessors
  | mask marks _ => c.maskIn m serial marks
  | reshape shape => c.reshapeIn m serial shape

/-- An operation on a cube that fits is computed as it is described, unless it overflows, and what it
makes has sizes that fit. -/
theorem makes_makeIn (h : c.Fits) (hsized : c.Sized) (op : Derivation) (serial : Nat) :
    c.Makes False (fun m => op.makeIn m serial c) (op.make serial c) := by
  cases op with
  | transpose => exact (Cube.makes_transposeIn serial c).mono False.elim
  | roll shifts => exact (h.makes_rollIn hsized shifts serial).mono False.elim
  | rollAxes shifts axes => exact (h.makes_rollAxesIn hsized shifts axes serial).mono False.elim
  | rollFlat shift => exact (h.makes_rollFlatIn hsized shift serial).mono False.elim
  | slice accessors => exact h.makes_sliceIn accessors serial
  | mask marks canonical => exact h.makes_maskIn canonical serial
  | reshape shape => exact Cube.makes_reshapeIn hsized shape serial

end Derivation

end Orthotope
