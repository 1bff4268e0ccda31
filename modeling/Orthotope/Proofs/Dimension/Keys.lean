import Orthotope.Proofs.Dimension.Length
import Orthotope.Proofs.Index.Keys
import Orthotope.Proofs.View.Compose

/-!
# The keys of derived axes

A part of an axis shows some of its positions, and should show them under the keys that they had
(`Dimension.Shows`). A mask does (`Dimension.shows_mask`), and so do the axes that a slice leaves
(`Dimension.slice_shows`), whether its ranges are taken as neighbours or marked one by one.

Which axis a slice shows at which, and how its positions move, is said by `AxisSlice.sources`. That is
how the slice moves coordinates too (`AxisSlice.getElem?_place`), and a slice of a slice has the
sources of the two one after the other (`AxisSlice.FitsAll.sources_compose`).
-/

namespace Orthotope

/-! ## Where axes come from -/

/-- Where the positions of an axis come from: the number of another axis, and the position of that axis
for each position of this one. -/
structure AxisSource where
  axis : Nat
  place : Nat → Nat

/-- The same place on the axis that follows. -/
def AxisSource.next (s : AxisSource) : AxisSource := { s with axis := s.axis + 1 }

/-- What is found among the sources of later axes. -/
theorem getElem?_map_next {sources : List AxisSource} {a : Nat} {s : AxisSource}
    (h : (sources.map AxisSource.next)[a]? = some s) :
    ∃ t, sources[a]? = some t ∧ s = t.next := by
  rw [List.getElem?_map] at h
  obtain ⟨t, ht, rfl⟩ := Option.map_eq_some_iff.1 h
  exact ⟨t, ht, rfl⟩

namespace AxisSlice

/-- Where the axes that a slice leaves come from. -/
def sources : List AxisSlice → List AxisSource
  | [] => []
  | fixed _ :: axes => (sources axes).map .next
  | range start step _ :: axes => ⟨0, fun i => start + i * step⟩ :: (sources axes).map .next

variable {axes inner outer : List AxisSlice} {shape coords : List Nat} {a : Nat} {s : AxisSource}

/-- There is one source for each axis that is left. -/
theorem length_sources (axes : List AxisSlice) : (sources axes).length = (counts axes).length := by
  induction axes with
  | nil => rfl
  | cons axis axes ih => cases axis <;> simp [sources, counts, ih]

/-- A slice takes the coordinates of the view to the axes that they come from. -/
theorem getElem?_place (hs : (sources axes)[a]? = some s)
    (hc : coords.length = (counts axes).length) :
    (place axes coords)[s.axis]? = coords[a]?.map s.place := by
  induction axes generalizing a s coords with
  | nil => cases hs
  | cons axis axes ih =>
    cases axis with
    | fixed c =>
      obtain ⟨t, ht, rfl⟩ := getElem?_map_next hs
      exact ih ht hc
    | range start step count =>
      cases coords with
      | nil => cases hc
      | cons i coords =>
        cases a with
        | zero =>
          cases hs
          rfl
        | succ a =>
          obtain ⟨t, ht, rfl⟩ := getElem?_map_next hs
          exact ih ht (Nat.succ.inj hc)

/-- The sources of a slice that fits lie within the axes that it is for. -/
theorem FitsAll.sources_lt (h : FitsAll axes shape) (hs : (sources axes)[a]? = some s) :
    ∃ count n, (counts axes)[a]? = some count ∧ shape[s.axis]? = some n ∧
      ∀ i < count, s.place i < n := by
  induction h generalizing a s with
  | nil => cases hs
  | @cons axis n axes shape hfit _ ih =>
    cases axis with
    | fixed c =>
      obtain ⟨t, ht, rfl⟩ := getElem?_map_next hs
      exact ih ht
    | range start step count =>
      cases a with
      | zero =>
        cases hs
        exact ⟨count, n, rfl, rfl, fun i hi => hfit.position_lt hi⟩
      | succ a =>
        obtain ⟨t, ht, rfl⟩ := getElem?_map_next hs
        exact ih ht

/-- A slice of a slice takes its positions from where the first slice takes those of the second. -/
theorem FitsAll.sources_compose (h : FitsAll inner shape) (h' : FitsAll outer (counts inner))
    (hs : (sources outer)[a]? = some s) :
    ∃ t, (sources inner)[s.axis]? = some t ∧
      (sources (AxisSlice.compose inner outer))[a]? = some ⟨t.axis, fun i => t.place (s.place i)⟩ := by
  induction h generalizing outer a s with
  | nil =>
    obtain rfl := List.forall₂_nil_right_iff.1 h'
    cases hs
  | @cons axis n inner shape _ _ ih =>
    cases axis with
    | fixed c =>
      obtain ⟨t, ht, hcomposed⟩ := ih h' hs
      refine ⟨t.next, ?_, ?_⟩
      · simp [sources, ht]
      · simp [sources, AxisSlice.compose, hcomposed, AxisSource.next]
    | range start step count =>
      obtain ⟨axis, outer, _, hrest, rfl⟩ := List.forall₂_cons_right_iff.1 h'
      cases axis with
      | fixed c =>
        obtain ⟨s, hrest', rfl⟩ := getElem?_map_next hs
        obtain ⟨t, ht, hcomposed⟩ := ih hrest hrest'
        refine ⟨t.next, ?_, ?_⟩
        · simp [sources, AxisSource.next, ht]
        · simp [sources, AxisSlice.compose, hcomposed, AxisSource.next]
      | range start' step' count' =>
        cases a with
        | zero =>
          cases hs
          refine ⟨_, rfl, ?_⟩
          have hplace : (fun i => start + start' * step + i * (step * step')) =
              fun i => start + (start' + i * step') * step := by
            funext i
            rw [Nat.add_mul, ← Nat.add_assoc, Nat.mul_assoc, Nat.mul_comm step' step]
          simp only [sources, AxisSlice.compose, hplace, List.getElem?_cons_zero]
        | succ a =>
          obtain ⟨s, hrest', rfl⟩ := getElem?_map_next hs
          obtain ⟨t, ht, hcomposed⟩ := ih hrest hrest'
          refine ⟨t.next, ?_, ?_⟩
          · simp [sources, AxisSource.next, ht]
          · simp [sources, AxisSlice.compose, hcomposed, AxisSource.next]

end AxisSlice

/-! ## Keys -/

namespace Dimension

/-- Position `i` of one axis shows position `place i` of another, under the same key. -/
structure Shows (part d : Dimension) (place : Nat → Nat) : Prop where
  place_lt : ∀ i < part.length, place i < d.length
  keyOf : ∀ i < part.length, part.index.keyOf i = d.index.keyOf (place i)

variable {d part : Dimension} {dims parts : List Dimension} {axes : List AxisSlice}

/-- An axis shows itself. -/
theorem Shows.refl (d : Dimension) : d.Shows d id := ⟨fun _ hi => hi, fun _ _ => rfl⟩

/-- What shows an axis also shows another axis from which that one is taken. -/
theorem Shows.factor {e : Dimension} {f g : Nat → Nat} (h : part.Shows e fun i => g (f i))
    (h' : d.Shows e g) (hlt : ∀ i < part.length, f i < d.length) : part.Shows d f where
  place_lt := hlt
  keyOf i hi := (h.keyOf i hi).trans (h'.keyOf (f i) (hlt i hi)).symm

/-- A mask keeps the keys at the marked positions. -/
theorem shows_mask (d : Dimension) {m : BitSet} (h : m.Canonical) (hsize : m.size = d.length) :
    (d.mask m).Shows d fun i => m.positions.getD i 0 := by
  have hpositions : m.positions = (List.range d.index.positions.length).filter m.mem := by
    rw [Index.length_positions, h.positions_eq, hsize]
    rfl
  have hmarked : ∀ i < (d.mask m).length, ∃ j, m.positions[i]? = some j ∧
      m.positions.getD i 0 = j ∧ j < d.index.positions.length := by
    intro i hi
    rw [d.length_mask h hsize] at hi
    refine ⟨m.positions[i], List.getElem?_eq_getElem hi, by simp [hi], ?_⟩
    have hlt := (h.mem_positions_iff.1 (List.getElem_mem hi)).1
    rw [hsize] at hlt
    exact Nat.lt_of_lt_of_eq hlt (Index.length_positions _).symm
  refine ⟨fun i hi => ?_, fun i hi => ?_⟩
  · obtain ⟨j, -, hj, hlt⟩ := hmarked i hi
    rw [hj]
    exact Nat.lt_of_lt_of_eq hlt (Index.length_positions _)
  · obtain ⟨j, hentry, hj, hlt⟩ := hmarked i hi
    show (d.index.mask m).keyOf i = d.index.keyOf (m.positions.getD i 0)
    rw [hj, Index.keyOf_eq, Index.keyOf_eq, Index.positions_mask _ h, Index.base_mask, Index.keep_eq,
      ← hpositions, List.getElem?_map, hentry, Option.map_some, List.getD_eq_getElem?_getD,
      List.getElem?_eq_getElem hlt]
    rfl

theorem index_of_sub {start stop : Nat} (h : d.sub start stop = .ok part) :
    d.index.sub start stop = .ok part.index := by
  unfold sub at h
  cases hindex : d.index.sub start stop with
  | error e =>
    rw [hindex] at h
    cases h
  | ok index =>
    rw [hindex] at h
    cases h
    rfl

/-- A range within an axis can be taken, and keeps the keys. -/
theorem range_shows {start step count : Nat}
    (h : (AxisSlice.range start step count).Fits d.length)
    (hpart : (if step = 1 then d.sub start (start + count) else d.every start step count) = .ok part) :
    part.Shows d fun i => start + i * step := by
  split at hpart
  · next hstep =>
    subst hstep
    obtain ⟨part', hpart', hlength⟩ := d.sub_of_le (Nat.le_add_right ..) h.stop_le
    obtain rfl : part' = part := Except.ok.inj (hpart'.symm.trans hpart)
    rw [Nat.add_sub_cancel_left] at hlength
    refine ⟨fun i hi => h.position_lt (hlength ▸ hi), fun i hi => ?_⟩
    rw [Nat.mul_one]
    exact Index.keyOf_sub (index_of_sub hpart) (by omega)
  · obtain ⟨m, hm, hcanon, hsize, hpositions⟩ := marks_of_fits h
    rw [every, hm] at hpart
    cases hpart
    have hshows := d.shows_mask hcanon hsize
    have hlength := d.length_mask hcanon hsize
    rw [hpositions, List.length_map, List.length_range] at hlength
    have hplace : ∀ i < (d.mask m).length, m.positions.getD i 0 = start + i * step := by
      intro i hi
      rw [hlength] at hi
      simp [hpositions, hi]
    refine ⟨fun i hi => ?_, fun i hi => ?_⟩
    · exact hplace i hi ▸ hshows.place_lt i hi
    · exact hplace i hi ▸ hshows.keyOf i hi

/-- What a slice does to the first axis and to the others. -/
theorem slice_cons_eq_ok {start step count : Nat}
    (h : slice (d :: dims) (.range start step count :: axes) = .ok parts) :
    ∃ part rest, (if step = 1 then d.sub start (start + count) else d.every start step count) = .ok part ∧
      slice dims axes = .ok rest ∧ parts = part :: rest := by
  rw [slice_range] at h
  obtain ⟨part, hpart, h⟩ := bind_eq_ok h
  obtain ⟨rest, hrest, h⟩ := bind_eq_ok h
  cases h
  exact ⟨part, rest, hpart, hrest, rfl⟩

/-- The axes that a slice leaves keep the keys of the axes that they come from. -/
theorem slice_shows (h : AxisSlice.FitsAll axes (shapeOf dims)) (hslice : slice dims axes = .ok parts)
    {a : Nat} {s : AxisSource} (hs : (AxisSlice.sources axes)[a]? = some s) :
    ∃ part d, parts[a]? = some part ∧ dims[s.axis]? = some d ∧ part.Shows d s.place := by
  induction dims generalizing axes parts a s with
  | nil =>
    obtain rfl := List.forall₂_nil_right_iff.1 h
    cases hs
  | cons d dims ih =>
    obtain ⟨axis, axes, hfit, hrest, rfl⟩ := List.forall₂_cons_right_iff.1 h
    cases axis with
    | fixed c =>
      obtain ⟨t, ht, rfl⟩ := getElem?_map_next hs
      exact ih hrest hslice ht
    | range start step count =>
      obtain ⟨part, rest, hpart, hparts, rfl⟩ := slice_cons_eq_ok hslice
      cases a with
      | zero =>
        cases hs
        exact ⟨part, d, rfl, rfl, range_shows hfit hpart⟩
      | succ a =>
        obtain ⟨t, ht, rfl⟩ := getElem?_map_next hs
        exact ih hrest hparts ht

/-- The axes that a slice leaves have derived indices if those that it is for have. -/
theorem derived_of_slice (h : AxisSlice.FitsAll axes (shapeOf dims))
    (hdims : ∀ d ∈ dims, d.index.Derived) (hslice : slice dims axes = .ok parts) :
    ∀ part ∈ parts, part.index.Derived := by
  induction dims generalizing axes parts with
  | nil =>
    obtain rfl := List.forall₂_nil_right_iff.1 h
    cases hslice
    exact fun _ hpart => nomatch hpart
  | cons d dims ih =>
    obtain ⟨axis, axes, hfit, hrest, rfl⟩ := List.forall₂_cons_right_iff.1 h
    have hd := hdims d List.mem_cons_self
    have hothers : ∀ d ∈ dims, d.index.Derived := fun d hd => hdims d (List.mem_cons_of_mem _ hd)
    cases axis with
    | fixed c => exact ih hrest hothers hslice
    | range start step count =>
      obtain ⟨part, rest, hpart, hparts, rfl⟩ := slice_cons_eq_ok hslice
      refine List.forall_mem_cons.2 ⟨?_, ih hrest hothers hparts⟩
      split at hpart
      · exact hd.sub (index_of_sub hpart)
      · obtain ⟨m, hm, hcanon, -, -⟩ := marks_of_fits hfit
        rw [every, hm] at hpart
        cases hpart
        exact hd.mask hcanon

end Dimension

end Orthotope
