import Orthotope.Proofs.Cube.Slicing
import Orthotope.Proofs.Store.Identity

/-!
# Slices that keep every axis

A slice keeps an axis if it selects all positions of the axis in order (`AxisSlice.Keeps`). A slice gives
the cube itself if its entries are the ranges from zero on by one up to the lengths of the axes, and
else a new view. For entries that fit, those ranges are the ones that keep the axis and have no step
(`AxisSlice.eq_whole_iff`). An axis of at most one position is also kept with a step, and then the slice
is a new view that shows just what the cube shows (`Cube.Made.slice_same_iff`).
-/

namespace Orthotope

/-! ## Keeping axes -/

namespace AxisSlice

/-- An entry keeps an axis of the given length if it is a range that selects all positions in order. -/
def Keeps : AxisSlice → Nat → Prop
  | fixed _, _ => False
  | range start step count, n => (range start step count).positions = List.range n

/-- Whether an entry is a range with a step other than one. -/
def Steps : AxisSlice → Prop
  | fixed _ => False
  | range _ step _ => step ≠ 1

section
variable {start step count n : Nat} {cut : AxisSlice} {axes : List AxisSlice} {shape coords : List Nat}

theorem Keeps.count_eq (h : (range start step count).Keeps n) : count = n := by
  have hlength := congrArg List.length (h : (range start step count).positions = List.range n)
  simpa [positions] using hlength

theorem Keeps.position_eq (h : (range start step count).Keeps n) {i : Nat} (hi : i < n) :
    start + i * step = i := by
  obtain rfl := h.count_eq
  have hget := congrArg (·[i]?) (h : (range start step count).positions = List.range count)
  simpa [positions, hi] using hget

/-- With a step the second position would be left out. -/
theorem Keeps.le_one (h : cut.Keeps n) (hsteps : cut.Steps) : n ≤ 1 := by
  cases cut with
  | fixed p => exact h.elim
  | range start step count =>
    by_contra hn
    have hfirst := h.position_eq (i := 0) (by omega)
    have hsecond := h.position_eq (i := 1) (by omega)
    exact hsteps (by omega)

theorem counts_of_keeps (h : List.Forall₂ Keeps axes shape) : counts axes = shape := by
  induction h with
  | nil => rfl
  | @cons cut n axes shape hcut _ ih =>
    cases cut with
    | fixed p => exact hcut.elim
    | range start step count => rw [counts, hcut.count_eq, ih]

theorem place_of_keeps (h : List.Forall₂ Keeps axes shape) (hc : Within shape coords) :
    place axes coords = coords := by
  induction h generalizing coords with
  | nil =>
    cases coords with
    | nil => rfl
    | cons => exact hc.elim
  | @cons cut n axes shape hcut _ ih =>
    cases cut with
    | fixed p => exact hcut.elim
    | range start step count =>
      cases coords with
      | nil => exact hc.elim
      | cons i coords => rw [place, hcut.position_eq hc.1, ih hc.2]

theorem keeps_whole (n : Nat) : (whole n).Keeps n := by
  show (List.range n).map (fun i => 0 + i * 1) = _
  simp

/-- Keeping an axis without a step is keeping it by the range that stands for the whole axis. -/
theorem eq_whole_iff (h : cut.Fits n) : cut = whole n ↔ cut.Keeps n ∧ ¬ cut.Steps := by
  constructor
  · rintro rfl
    exact ⟨keeps_whole n, fun hsteps => hsteps rfl⟩
  · rintro ⟨hkeeps, hstep⟩
    cases cut with
    | fixed p => exact hkeeps.elim
    | range start step count =>
      obtain rfl : step = 1 := Decidable.not_not.1 hstep
      obtain rfl := hkeeps.count_eq
      have hle := h.stop_le
      obtain rfl : start = 0 := by omega
      rfl

theorem FitsAll.eq_whole_iff (h : FitsAll axes shape) :
    axes = shape.map whole ↔ List.Forall₂ Keeps axes shape ∧ ∀ cut ∈ axes, ¬ cut.Steps := by
  induction h with
  | nil => simp
  | cons hcut _ ih =>
    rw [List.map_cons, List.cons.injEq, AxisSlice.eq_whole_iff hcut, ih, List.forall₂_cons,
      List.forall_mem_cons]
    exact and_and_and_comm

end

end AxisSlice

namespace Cube

section
variable {k₀ k : Kind} {slot : Nat} {dims : List Dimension} {c d : Cube k} {w : Workspace}
  {accessors : List Accessor} {axes : List AxisSlice}

/-- A slice gives the cube itself for the ranges that stand for whole axes, and else a new object. -/
theorem Made.slice_same_or_new (h : Made (.leaf k₀ slot dims) w c) (hrank : accessors.length ≤ c.rank)
    (haxes : Accessor.resolveAll c.shape accessors = .ok axes)
    (hmake : c.slice w.serial accessors = .ok d) :
    (d = c ∧ axes = c.shape.map AxisSlice.whole) ∨
      (d.same c = false ∧ axes ≠ c.shape.map AxisSlice.whole) := by
  rw [slice_of_resolved hrank haxes] at hmake
  split at hmake
  · next hwhole =>
    cases hmake
    exact .inl ⟨rfl, hwhole⟩
  · next hne =>
    obtain ⟨dims, -, rfl⟩ := sliceBy_eq_ok hmake
    exact .inr ⟨decide_eq_false h.serialsBelow.ne_next.symm, hne⟩

/-- A slice of a cube that is made from a leaf, whose accessors are resolved, gives the very cube exactly
if it keeps all axes and has no step. An axis that is kept with a step has at most one position. Then the
slice is not the same object, but shows the same. -/
theorem Made.slice_same_iff (h : Made (.leaf k₀ slot dims) w c) (hrank : accessors.length ≤ c.rank)
    (haxes : Accessor.resolveAll c.shape accessors = .ok axes) :
    ∃ d w', ((Derivation.slice accessors).run c).run.run w = (.ok d, w') ∧
      (d.same c = true ↔
        List.Forall₂ AxisSlice.Keeps axes c.shape ∧ ∀ cut ∈ axes, ¬ cut.Steps) ∧
      (d.same c = true → d = c) ∧
      (List.Forall₂ AxisSlice.Keeps axes c.shape → d.Presents c c.shape id) ∧
      ∀ (axis n : Nat) (cut : AxisSlice), axes[axis]? = some cut → c.shape[axis]? = some n →
        cut.Keeps n → cut.Steps → n ≤ 1 := by
  have hfits := h.layered.fits_and_bottom.1
  obtain ⟨d, hd, hpresents⟩ := presents_slice w.serial hfits hrank haxes
  obtain ⟨w', hrun, -⟩ := Session.run_derive
    (fun serial => (Derivation.slice accessors).make serial c) (w := w) hd
  have hwhole := (Accessor.resolveAll_fits haxes).eq_whole_iff
  refine ⟨d, w', hrun, ?_, ?_, fun hkeeps => ?_, fun _ _ _ _ _ hkeeps => hkeeps.le_one⟩
  · rw [← hwhole]
    rcases h.slice_same_or_new hrank haxes hd with ⟨rfl, hkept⟩ | ⟨hnew, hne⟩
    · exact iff_of_true (decide_eq_true rfl) hkept
    · exact iff_of_false (by simp [hnew]) hne
  · rcases h.slice_same_or_new hrank haxes hd with ⟨rfl, -⟩ | ⟨hnew, -⟩
    · exact fun _ => rfl
    · exact fun hsame => absurd hsame (by simp [hnew])
  · rw [AxisSlice.counts_of_keeps hkeeps] at hpresents
    exact hpresents.congr fun cs hc => AxisSlice.place_of_keeps hkeeps hc

end

/-- All of the four positions that a slice of five has left, counted from the end. -/
theorem Made.slice_same_iff_counted_back :
    let leaf : Cube .i32 := .leaf .i32 0 [.ofLength 5]
    ∃ c w d w', ((Derivation.slice [.range 1 none 1]).run leaf).run.run {} = (.ok c, w) ∧
      ((Derivation.slice [.range (-4) (some 4) 1]).run c).run.run w = (.ok d, w') ∧
      d.same c = true := by
  intro leaf
  obtain ⟨c, w, hrun, hshape, hrank⟩ : ∃ c w,
      ((Derivation.slice [.range 1 none 1]).run leaf).run.run {} = (.ok c, w) ∧ c.shape = [4] ∧
        c.rank = 1 := ⟨_, _, rfl, rfl, rfl⟩
  have hmade : Made leaf w c := .derive (.root {}) hrun
  have haxes : Accessor.resolveAll c.shape [.range (-4) (some 4) 1] = .ok [.range 0 1 4] := by
    rw [hshape]
    rfl
  have hkeeps : List.Forall₂ AxisSlice.Keeps [.range 0 1 4] c.shape := by
    rw [hshape]
    exact .cons rfl .nil
  have hone : [Accessor.range (-4) (some 4) 1].length ≤ c.rank := Nat.le_of_eq hrank.symm
  obtain ⟨d, w', hrun', hsame, -⟩ := Made.slice_same_iff hmade hone haxes
  exact ⟨c, w, d, w', hrun, hrun', hsame.2 ⟨hkeeps, by simp [AxisSlice.Steps]⟩⟩

/-- The only position of an axis, taken with a step, keeps the axis and yet makes a new view. -/
theorem Made.stepped_slice_of_one_is_new :
    let leaf : Cube .i32 := .leaf .i32 0 [.ofLength 1]
    ∃ d w, ((Derivation.slice [.range 0 none 2]).run leaf).run.run {} = (.ok d, w) ∧
      Accessor.resolveAll leaf.shape [.range 0 none 2] = .ok [.range 0 2 1] ∧
      List.Forall₂ AxisSlice.Keeps [.range 0 2 1] leaf.shape ∧ d.same leaf = false :=
  ⟨_, _, rfl, rfl, .cons rfl .nil, rfl⟩

end Cube

end Orthotope
