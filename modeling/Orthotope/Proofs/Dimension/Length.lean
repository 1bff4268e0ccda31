import Orthotope.Cube.Derive
import Orthotope.Proofs.BitSet.Positions
import Orthotope.Proofs.View.Fit

/-!
# The lengths of derived axes

A slice, a mask and a roll make axes out of axes. The transform of the view and the axes of the view
are computed apart from each other; here they are shown to agree on lengths. A mask leaves as many
positions as it marks (`Dimension.length_mask`), and a slice whose entries fit leaves axes as long as
its ranges (`Dimension.slice_of_fits`). The latter also says that slicing the axes cannot fail.
-/

namespace Orthotope

namespace BitSet

/-- Marking positions below the size succeeds, and marks just those. -/
theorem Canonical.insertAll {s : BitSet} (h : s.Canonical) {ps : List Nat}
    (hlt : ∀ p ∈ ps, p < s.size) : ∃ t, s.insertAll ps = .ok t ∧ t.Canonical ∧ t.size = s.size ∧
      ∀ q, t.mem q = true ↔ q ∈ ps ∨ s.mem q = true := by
  induction ps generalizing s with
  | nil => exact ⟨s, rfl, h, rfl, fun q => by simp⟩
  | cons p ps ih =>
    have hp : p < s.size := hlt p List.mem_cons_self
    obtain ⟨t, ht, hcanon, hsize, hmem⟩ := ih (h.mark p true) fun q hq => by
      rw [size_mark]
      exact hlt q (List.mem_cons_of_mem p hq)
    refine ⟨t, ?_, hcanon, by rw [hsize, size_mark], fun q => ?_⟩
    · show (s.insert p >>= fun s => s.insertAll ps) = .ok t
      rw [insert, assign, if_pos hp]
      exact ht
    · rw [hmem, h.mem_mark, List.mem_cons]
      by_cases hq : q = p <;> simp [hq, hp]

end BitSet

namespace Index

/-- As many entries are kept as there are marks within the length. -/
theorem length_keep (m : BitSet) (ps : List Nat) :
    (keep m ps).length = ((List.range ps.length).filter m.mem).length := by
  have hkeep : ∀ (ps : List Nat) (i : Nat),
      ((ps.zipIdx i).filterMap fun e => if m.mem e.2 then some e.1 else none).length =
        ((List.range' i ps.length).filter m.mem).length := by
    intro ps
    induction ps with
    | nil => intro i; rfl
    | cons p ps ih =>
      intro i
      rw [List.zipIdx_cons, List.filterMap_cons, List.length_cons, List.range'_succ,
        List.filter_cons]
      by_cases hmem : m.mem i <;> simp [hmem, ih]
  rw [List.range_eq_range']
  exact hkeep ps 0

end Index

namespace Dimension

/-- A mask as long as the axis leaves as many positions as it marks. -/
theorem length_mask (d : Dimension) {m : BitSet} (h : m.Canonical) (hsize : m.size = d.length) :
    (d.mask m).length = m.positions.length := by
  have hlen : d.index.positions.length = m.size := by
    rw [Index.length_positions, hsize]
    rfl
  show (d.index.mask m).size = _
  rw [← Index.length_positions, Index.positions_mask _ h, Index.length_keep, hlen, ← h.positions_eq]

/-- A range of neighbours within the axis can be taken. -/
theorem sub_of_le (d : Dimension) {start stop : Nat} (hle : start ≤ stop) (hstop : stop ≤ d.length) :
    ∃ part, d.sub start stop = .ok part ∧ part.length = stop - start := by
  have hrange : start ≤ stop ∧ stop ≤ d.index.size := ⟨hle, hstop⟩
  obtain ⟨index, hindex⟩ : ∃ index, d.index.sub start stop = .ok index := by
    unfold Index.sub
    rw [if_pos hrange]
    exact ⟨_, rfl⟩
  refine ⟨⟨index⟩, by rw [sub, hindex]; rfl, ?_⟩
  show index.size = stop - start
  rw [← Index.length_positions, Index.positions_sub hindex, List.length_take, List.length_drop,
    Index.length_positions]
  have : stop ≤ d.index.size := hstop
  omega

/-- The positions of a range with a step can be marked if the last of them lies within the axis. -/
theorem marks_of_fits {start step count n : Nat} (h : (AxisSlice.range start step count).Fits n) :
    ∃ m, (BitSet.empty n).insertAll ((List.range count).map fun i => start + i * step) = .ok m ∧
      m.Canonical ∧ m.size = n ∧ m.positions = (List.range count).map fun i => start + i * step := by
  have hlt : ∀ p ∈ (List.range count).map (fun i => start + i * step),
      p < (BitSet.empty n).size := by
    intro p hp
    obtain ⟨i, hi, rfl⟩ := List.mem_map.1 hp
    exact h.position_lt (List.mem_range.1 hi)
  obtain ⟨m, hm, hcanon, hsize, hmem⟩ := (BitSet.canonical_empty n).insertAll hlt
  refine ⟨m, hm, hcanon, hsize, ?_⟩
  have hascending : (AxisSlice.range start step count).positions.Pairwise (· < ·) :=
    AxisSlice.pairwise_positions h.1
  refine Index.eq_of_pairwise_lt (BitSet.pairwise_positions m) hascending fun p => ?_
  rw [hcanon.mem_positions_iff, hmem, BitSet.mem_empty]
  refine ⟨fun hp => hp.2.resolve_right (by simp), fun hp => ⟨?_, .inl hp⟩⟩
  exact hsize ▸ hlt p hp

/-- The positions of a range with a step can be taken if the last of them lies within the axis. -/
theorem every_of_fits (d : Dimension) {start step count : Nat}
    (h : (AxisSlice.range start step count).Fits d.length) :
    ∃ part, d.every start step count = .ok part ∧ part.length = count := by
  obtain ⟨m, hm, hcanon, hsize, hpositions⟩ := marks_of_fits h
  refine ⟨d.mask m, by rw [every, hm]; rfl, ?_⟩
  rw [length_mask d hcanon hsize, hpositions, List.length_map, List.length_range]

/-- A range takes the positions of its axis, then come the other axes. -/
theorem slice_range (d : Dimension) (dims : List Dimension) (start step count : Nat)
    (axes : List AxisSlice) : slice (d :: dims) (.range start step count :: axes) =
      (if step = 1 then d.sub start (start + count) else d.every start step count) >>= fun part =>
        slice dims axes >>= fun parts => .ok (part :: parts) := by
  rw [slice]
  split <;> rfl

/-- What a range takes of an axis can be taken, and has the length that the range says. A range of
neighbours is taken as such and others by their marks. -/
def Cuts (d : Dimension) : AxisSlice → Prop
  | .fixed _ => True
  | .range start step count => ∃ part, (if step = 1 then d.sub start (start + count)
      else d.every start step count) = .ok part ∧ part.length = count

theorem cuts_of_fits {d : Dimension} {cut : AxisSlice} (h : cut.Fits d.length) : d.Cuts cut := by
  cases cut with
  | fixed c => trivial
  | range start step count =>
    show ∃ part, (if step = 1 then d.sub start (start + count) else d.every start step count) =
      .ok part ∧ part.length = count
    split
    · next hstep =>
      subst hstep
      obtain ⟨part, hpart, hlength⟩ := d.sub_of_le (Nat.le_add_right ..) h.stop_le
      exact ⟨part, hpart, hlength.trans (Nat.add_sub_cancel_left ..)⟩
    · exact d.every_of_fits h

/-- A slice whose entries fit the axes leaves axes as long as its ranges. -/
theorem slice_of_fits {dims : List Dimension} {axes : List AxisSlice}
    (h : AxisSlice.FitsAll axes (shapeOf dims)) :
    ∃ parts, slice dims axes = .ok parts ∧ shapeOf parts = AxisSlice.counts axes := by
  induction dims generalizing axes with
  | nil =>
    obtain rfl := List.forall₂_nil_right_iff.1 h
    exact ⟨[], rfl, rfl⟩
  | cons d dims ih =>
    obtain ⟨axis, axes, hfit, hrest, rfl⟩ := List.forall₂_cons_right_iff.1 h
    obtain ⟨parts, hparts, hshape⟩ := ih hrest
    cases axis with
    | fixed c => exact ⟨parts, hparts, hshape⟩
    | range start step count =>
      obtain ⟨part, hpart, hlength⟩ := cuts_of_fits hfit
      refine ⟨part :: parts, ?_, ?_⟩
      · rw [slice_range, hpart, hparts]
        rfl
      · show part.length :: shapeOf parts = count :: AxisSlice.counts axes
        rw [hlength, hshape]

end Dimension

end Orthotope
