import Orthotope.Proofs.Accessor.Positions
import Orthotope.Proofs.Cube.Folding

/-!
# When slices succeed

A slice puts its accessors to the axes of a cube one by one. It fails for having too many of them or for
the first that is refused by its axis (`Accessor.Refuses`), and for no other reason
(`Layered.slice_outcome`).

What comes after the accessors are resolved cannot fail. The axes of the result are cut out of the axes
of the cube, or of the cube under it if that is a sliced view itself, and then the cuts are composed ones
(`Cube.cutsUnder`). A composed range that is empty may start beyond the end of its axis, and is yet
taken of it: such a range has a step above one, because a range of neighbours starts within its axis
however it was composed (`AxisSlice.Fits`).
-/

namespace Orthotope

/-! ## Resolving all accessors -/

namespace Accessor

/-- The accessor for an axis of a shape cannot be put to that axis. -/
def Refuses (shape : List Nat) (accessors : List Accessor) (axis : Nat) (e : Error) : Prop :=
  ∃ a n, accessors[axis]? = some a ∧ shape[axis]? = some n ∧ a.resolve n = .error e

/-- The first axis of a shape that refuses its accessor does so with the given error. -/
def FirstRefused (shape : List Nat) (accessors : List Accessor) (e : Error) : Prop :=
  ∃ axis, Refuses shape accessors axis e ∧ ∀ i < axis, ∀ e', ¬ Refuses shape accessors i e'

variable {n i : Nat} {shape : List Nat} {a : Accessor} {accessors : List Accessor} {e e' : Error}

theorem refuses_zero : Refuses (n :: shape) (a :: accessors) 0 e ↔ a.resolve n = .error e := by
  simp [Refuses]

theorem refuses_succ :
    Refuses (n :: shape) (a :: accessors) (i + 1) e ↔ Refuses shape accessors i e := by
  simp [Refuses]

theorem not_refuses_nil_left : ¬ Refuses [] accessors i e := by
  rintro ⟨a, n, -, hn, -⟩
  cases hn

theorem not_refuses_nil_right : ¬ Refuses shape [] i e := by
  rintro ⟨a, n, ha, -⟩
  cases ha

theorem FirstRefused.unique (h : FirstRefused shape accessors e)
    (h' : FirstRefused shape accessors e') : e = e' := by
  obtain ⟨axis, hrefuses, hfirst⟩ := h
  obtain ⟨axis', hrefuses', hfirst'⟩ := h'
  obtain rfl : axis = axis' := by
    rcases Nat.lt_trichotomy axis axis' with hlt | heq | hlt
    · exact absurd hrefuses (hfirst' axis hlt e)
    · exact heq
    · exact absurd hrefuses' (hfirst axis' hlt e')
  obtain ⟨a, n, ha, hn, he⟩ := hrefuses
  obtain ⟨a', n', ha', hn', he'⟩ := hrefuses'
  rw [ha] at ha'
  rw [hn] at hn'
  cases ha'
  cases hn'
  exact Except.error.inj (he.symm.trans he')

theorem resolveAll_nil (shape : List Nat) : resolveAll shape [] = .ok (shape.map .whole) := by
  induction shape with
  | nil => rfl
  | cons n shape ih =>
    rw [resolveAll, ih]
    rfl

/-- Either all accessors are resolved and none is refused, or the first that is refused says why not. -/
theorem resolveAll_cases (shape : List Nat) (accessors : List Accessor) :
    (∃ axes, resolveAll shape accessors = .ok axes ∧ ∀ i e, ¬ Refuses shape accessors i e) ∨
      ∃ e, resolveAll shape accessors = .error e ∧ FirstRefused shape accessors e := by
  induction shape generalizing accessors with
  | nil => exact .inl ⟨[], rfl, fun _ _ => not_refuses_nil_left⟩
  | cons n shape ih =>
    cases accessors with
    | nil => exact .inl ⟨_, resolveAll_nil _, fun _ _ => not_refuses_nil_right⟩
    | cons a accessors =>
      cases hfirst : a.resolve n with
      | error e =>
        refine .inr ⟨e, ?_, 0, refuses_zero.2 hfirst, fun i hi => absurd hi (Nat.not_lt_zero i)⟩
        rw [resolveAll, hfirst]
        rfl
      | ok first =>
        have hzero : ∀ e, ¬ Refuses (n :: shape) (a :: accessors) 0 e := fun e h => by
          rw [refuses_zero, hfirst] at h
          cases h
        rcases ih accessors with ⟨axes, haxes, hnone⟩ | ⟨e, he, axis, hrefuses, hbefore⟩
        · refine .inl ⟨first :: axes, ?_, fun i e => ?_⟩
          · rw [resolveAll, hfirst, haxes]
            rfl
          · cases i with
            | zero => exact hzero e
            | succ i => exact fun h => hnone i e (refuses_succ.1 h)
        · refine .inr ⟨e, ?_, axis + 1, refuses_succ.2 hrefuses, fun i hi e' => ?_⟩
          · rw [resolveAll, hfirst, he]
            rfl
          · cases i with
            | zero => exact hzero e'
            | succ i => exact fun h => hbefore i (Nat.lt_of_succ_lt_succ hi) e' (refuses_succ.1 h)

theorem resolveAll_eq_error_iff :
    resolveAll shape accessors = .error e ↔ FirstRefused shape accessors e := by
  rcases resolveAll_cases shape accessors with ⟨axes, haxes, hnone⟩ | ⟨e', he', hfirst⟩
  · refine iff_of_false (by simp [haxes]) ?_
    rintro ⟨axis, hrefuses, -⟩
    exact hnone axis e hrefuses
  · rw [he', Except.error.injEq]
    exact ⟨fun heq => heq ▸ hfirst, fun h => hfirst.unique h⟩

theorem exists_resolveAll_iff : (∃ axes, resolveAll shape accessors = .ok axes) ↔
    ∀ i e, ¬ Refuses shape accessors i e := by
  rcases resolveAll_cases shape accessors with ⟨axes, haxes, hnone⟩ | ⟨e, he, axis, hrefuses, -⟩
  · exact iff_of_true ⟨axes, haxes⟩ hnone
  · exact iff_of_false (by simp [he]) fun hnone => hnone axis e hrefuses

/-- What can be wrong with a single accessor. -/
theorem error_of_resolve (h : a.resolve n = .error e) :
    e = .sliceIndex ∨ e = .sliceRange ∨ e = .sliceStep := by
  rcases a with index | ⟨start, stop, step⟩
  · rw [resolve_at] at h
    split at h <;> cases h
    exact .inl rfl
  · rw [resolve_range] at h
    split at h
    · cases h
      exact .inr (.inr rfl)
    · split at h <;> cases h
      exact .inr (.inl rfl)

theorem Refuses.error (h : Refuses shape accessors i e) :
    e = .sliceIndex ∨ e = .sliceRange ∨ e = .sliceStep := by
  obtain ⟨a, n, -, -, he⟩ := h
  exact error_of_resolve he

end Accessor

/-! ## Cutting the axes -/

namespace Cube

variable {k : Kind} {c : Cube k} {serial : Nat} {accessors : List Accessor} {axes : List AxisSlice}
  {e : Error}

theorem slice_of_rank_lt (serial : Nat) (h : c.rank < accessors.length) :
    c.slice serial accessors = .error .sliceRank := by
  rw [slice, if_pos h]
  rfl

theorem slice_of_refused (hrank : accessors.length ≤ c.rank)
    (haxes : Accessor.resolveAll c.shape accessors = .error e) :
    c.slice serial accessors = .error e := by
  rw [slice, if_neg (Nat.not_lt.2 hrank), haxes]
  rfl

/-- A slice that has not too many accessors fails just as resolving them does. -/
theorem Fits.slice_eq_error_iff (h : c.Fits) (hrank : accessors.length ≤ c.rank) :
    c.slice serial accessors = .error e ↔ Accessor.FirstRefused c.shape accessors e := by
  rw [← Accessor.resolveAll_eq_error_iff]
  cases haxes : Accessor.resolveAll c.shape accessors with
  | error e' => simp only [slice_of_refused hrank haxes, Except.error.injEq]
  | ok axes =>
    obtain ⟨d, hd, -⟩ := presents_slice serial h hrank haxes
    simp [hd]

theorem Fits.exists_slice_iff (h : c.Fits) (serial : Nat) (hrank : accessors.length ≤ c.rank) :
    (∃ d, c.slice serial accessors = .ok d) ↔ ∀ i e, ¬ Accessor.Refuses c.shape accessors i e := by
  rw [← Accessor.exists_resolveAll_iff]
  constructor
  · rintro ⟨d, hd⟩
    obtain ⟨axes, haxes, -⟩ := resolved_of_slice hd
    exact ⟨axes, haxes⟩
  · rintro ⟨axes, haxes⟩
    obtain ⟨d, hd, -⟩ := presents_slice serial h hrank haxes
    exact ⟨d, hd⟩

/-- All entries of a slice can be cut out of the axes that they are for. -/
theorem Fits.cuts (h : c.Fits) (haxes : Accessor.resolveAll c.shape accessors = .ok axes) :
    List.Forall₂ Dimension.Cuts (c.under .sliced).dims (c.cutsUnder axes) := by
  have hfits := h.cutsUnder (Accessor.resolveAll_fits haxes)
  have hcuts := (List.forall₂_map_right_iff.1 hfits).imp fun _ _ => Dimension.cuts_of_fits
  exact hcuts.flip

end Cube

/-- A slice of a cube that is made from a leaf, by any operations and conversions, fails for having more
accessors than the cube has axes, and else for the first axis that refuses its accessor, and else it
succeeds. There are no other failures: whatever is resolved can be cut out of the axes. -/
theorem Layered.slice_outcome {k₀ k : Kind} {slot : Nat} {dims : List Dimension} {c : Cube k}
    (h : Layered (.leaf k₀ slot dims) c) (serial : Nat) (accessors : List Accessor) :
    (c.slice serial accessors = .error .sliceRank ↔ c.rank < accessors.length) ∧
    (accessors.length ≤ c.rank →
      (∀ e, c.slice serial accessors = .error e ↔ Accessor.FirstRefused c.shape accessors e) ∧
      ((∃ d, c.slice serial accessors = .ok d) ↔
        ∀ i e, ¬ Accessor.Refuses c.shape accessors i e) ∧
      ∀ axes, Accessor.resolveAll c.shape accessors = .ok axes →
        (c.slice serial accessors = if axes = c.shape.map AxisSlice.whole then .ok c
          else (c.under .sliced).sliceBy serial (c.cutsUnder axes)) ∧
        List.Forall₂ Dimension.Cuts (c.under .sliced).dims (c.cutsUnder axes)) ∧
    ∀ e, c.slice serial accessors = .error e →
      e = .sliceRank ∨ e = .sliceIndex ∨ e = .sliceRange ∨ e = .sliceStep := by
  have hfits := h.fits_and_bottom.1
  rcases Nat.lt_or_ge c.rank accessors.length with hrank | hrank
  · have hslice := Cube.slice_of_rank_lt serial hrank
    refine ⟨iff_of_true hslice hrank, fun hle => absurd hrank (Nat.not_lt.2 hle), fun e he => ?_⟩
    exact .inl (Except.error.inj (he.symm.trans hslice))
  refine ⟨iff_of_false ?_ (Nat.not_lt.2 hrank), fun _ => ⟨fun e => ?_, ?_, fun axes haxes => ?_⟩, ?_⟩
  · intro heq
    obtain ⟨axis, hrefuses, -⟩ := (hfits.slice_eq_error_iff hrank).1 heq
    rcases hrefuses.error with h | h | h <;> cases h
  · exact hfits.slice_eq_error_iff hrank
  · exact hfits.exists_slice_iff serial hrank
  · exact ⟨Cube.slice_of_resolved hrank haxes, hfits.cuts haxes⟩
  · intro e he
    obtain ⟨axis, hrefuses, -⟩ := (hfits.slice_eq_error_iff hrank).1 he
    exact .inr hrefuses.error

/-- An axis of length five is sliced with a step and then to nothing. A third slice has to cut a range
that starts at seven, beyond the end of the axis. -/
theorem Layered.slice_outcome_empty_range :
    let leaf : Cube .i32 := .leaf .i32 0 [.ofLength 5]
    ∃ c : Cube .i32, Layered leaf c ∧ (∃ d, c.slice 2 [.range 0 none 2] = .ok d) ∧
      List.Forall₂ Dimension.Cuts [.ofLength 5] [.range 7 6 0] ∧
      c.slice 2 [.at 0] = .error .sliceIndex ∧ c.slice 2 [.full, .full] = .error .sliceRank := by
  intro leaf
  let last : Cube .i32 := .view 0 leaf [⟨.masked "D[mask]" (.natural "D" 5) #[4]⟩] (.sliced [.range 4 3 1])
  let c : Cube .i32 := .view 1 leaf [⟨.masked "D[mask]" (.natural "D" 5) #[]⟩] (.sliced [.range 7 3 0])
  have hlast : Derivation.make 0 leaf (.slice [.range 4 none 3]) = .ok last := by cbv
  have hnone : Derivation.make 1 last (.slice [.range 1 none 1]) = .ok c := by cbv
  have hc : Layered leaf c := .derive (.derive .root hlast) hnone
  have hshape : c.shape = [0] := rfl
  have hrank : c.rank = 1 := rfl
  have hdims : (c.under .sliced).dims = [.ofLength 5] := rfl
  have hcuts : c.cutsUnder [.range 0 2 0] = [.range 7 6 0] := rfl
  have haxes : Accessor.resolveAll c.shape [.range 0 none 2] = .ok [.range 0 2 0] := by
    rw [hshape]
    rfl
  have hrefused : Accessor.FirstRefused c.shape [.at 0] .sliceIndex := by
    rw [hshape]
    exact ⟨0, ⟨.at 0, 0, rfl, rfl, rfl⟩, fun i hi => absurd hi (Nat.not_lt_zero i)⟩
  have hone := Nat.le_of_eq hrank.symm
  have hrange := (hc.slice_outcome 2 [.range 0 none 2]).2.1 hone
  have hslice := hrange.2.1.2 (Accessor.exists_resolveAll_iff.1 ⟨_, haxes⟩)
  have hcut := (hrange.2.2 _ haxes).2
  rw [hdims, hcuts] at hcut
  refine ⟨c, hc, hslice, hcut, ((hc.slice_outcome 2 [.at 0]).2.1 hone).1 _ |>.2 hrefused, ?_⟩
  exact (hc.slice_outcome 2 [.full, .full]).1.2 (hrank ▸ Nat.one_lt_two)

end Orthotope
