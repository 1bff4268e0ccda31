import Orthotope.Cube.Derive
import Orthotope.Proofs.View.Fit

/-!
# Composing transforms

When an operation is folded into a view of its own kind, two transforms become one: shifts are added,
slices are composed and tables of marked positions are looked up in each other. Each section says of
one kind that the combined transform fits wherever the two did, and that it shows what the two show
one after the other (`unrollAxes_combineShifts`, `unrollFlat_unrollFlat`,
`AxisSlice.FitsAll.place_compose`).

The sections also say where the parts come from: shifts that were reduced (`normalizeShifts_fit`) and
accessors that were resolved (`Accessor.resolveAll_fits`) fit the axes that they were made for.
-/

namespace Orthotope

/-! ## Shifts -/

@[simp] theorem unroll_zero (i n : Nat) : unroll i 0 n = i := rfl

/-- The start of the circle lies the shift before a position, whatever multiple of the length was taken
off the shift. -/
theorem unroll_normalizeShift {i n : Nat} (hi : i < n) (s : Int) :
    unroll i (normalizeShift s n) n = (((i : Int) - s) % n).toNat := by
  have hn : n ≠ 0 := by omega
  have hnpos : (0 : Int) < n := by omega
  have hlo : 0 ≤ s % (n : Int) := Int.emod_nonneg s (by omega)
  have hhi : s % (n : Int) < n := Int.emod_lt_of_pos s hnpos
  have hmod : ((i : Int) - s) % n = ((i : Int) - s % n) % n := by
    rw [Int.sub_emod, Int.sub_emod (i : Int) (s % n), Int.emod_emod_of_dvd s (Int.dvd_refl _)]
  rw [hmod, normalizeShift, if_neg hn, unroll]
  generalize s % (n : Int) = r at hlo hhi
  split
  · next hle =>
    rw [Int.emod_eq_of_lt (by omega) (by omega)]
    omega
  · next hgt =>
    rw [← Int.add_emod_right, Int.emod_eq_of_lt (by omega) (by omega)]
    omega

/-- The position that lies a shift before another, up to one turn of the circle. -/
theorem unroll_eq_iff {i s n j : Nat} (hi : i < n) (hs : s < n) :
    unroll i s n = j ↔ j < n ∧ (j + s = i ∨ j + s = i + n) := by
  unfold unroll; split <;> omega

/-- Going back by two shifts is going back by their sum. -/
theorem unroll_unroll {i a b n : Nat} (hi : i < n) (ha : a < n) (hb : b < n) :
    unroll (unroll i b n) a n = unroll i (addShifts a b n) n := by
  obtain ⟨hlt, hone⟩ := (unroll_eq_iff hi hb).1 rfl
  obtain ⟨hlt', htwo⟩ := (unroll_eq_iff hlt ha).1 rfl
  have hsum : addShifts a b n < n ∧ (addShifts a b n = a + b ∨ addShifts a b n + n = a + b) := by
    unfold addShifts
    split <;> (try split) <;> omega
  refine ((unroll_eq_iff hi hsum.1).2 ⟨hlt', ?_⟩).symm
  omega

theorem normalizeShift_fits (s : Int) (n : Nat) : ShiftFits (normalizeShift s n) n := by
  unfold normalizeShift
  split
  · next hn => exact .inr ⟨hn, rfl⟩
  · next hn =>
    have hlo : 0 ≤ s % (n : Int) := Int.emod_nonneg s (by omega)
    have hhi : s % (n : Int) < n := Int.emod_lt_of_pos s (by omega)
    exact .inl (by omega)

theorem addShifts_fits {a b n : Nat} (ha : ShiftFits a n) (hb : ShiftFits b n) :
    ShiftFits (addShifts a b n) n := by
  unfold addShifts
  rcases ha with ha | ⟨rfl, rfl⟩
  · rcases hb with hb | ⟨rfl, rfl⟩
    · refine .inl ?_
      split <;> (try split) <;> omega
    · exact absurd ha (Nat.not_lt_zero a)
  · exact .inr ⟨rfl, rfl⟩

theorem normalizeShifts_fit {shifts : List Int} {shape : List Nat}
    (h : shifts.length = shape.length) :
    List.Forall₂ ShiftFits (normalizeShifts shifts shape) shape := by
  induction shifts generalizing shape with
  | nil =>
    obtain rfl := List.eq_nil_of_length_eq_zero h.symm
    exact .nil
  | cons s shifts ih =>
    cases shape with
    | nil => cases h
    | cons n shape => exact .cons (normalizeShift_fits s n) (ih (Nat.succ.inj h))

theorem combineShifts_fit {as bs shape : List Nat} (ha : List.Forall₂ ShiftFits as shape)
    (hb : List.Forall₂ ShiftFits bs shape) :
    List.Forall₂ ShiftFits (combineShifts as bs shape) shape := by
  induction ha generalizing bs with
  | nil =>
    obtain rfl := List.forall₂_nil_right_iff.1 hb
    exact .nil
  | cons ha _ ih =>
    obtain ⟨b, bs, hb', hrest, rfl⟩ := List.forall₂_cons_right_iff.1 hb
    exact .cons (addShifts_fits ha hb') (ih hrest)

/-- Rolling by nothing leaves coordinates alone. -/
theorem unrollAxes_of_all_zero {coords shifts shape : List Nat} (hc : Within shape coords)
    (hs : shifts.length = shape.length) (hzero : shifts.all (· = 0) = true) :
    unrollAxes coords shifts shape = coords := by
  induction shape generalizing coords shifts with
  | nil =>
    cases coords with
    | nil => rfl
    | cons i coords => exact hc.elim
  | cons n shape ih =>
    cases coords with
    | nil => exact hc.elim
    | cons i coords =>
      cases shifts with
      | nil => cases hs
      | cons s shifts =>
        rw [List.all_cons, Bool.and_eq_true, decide_eq_true_eq] at hzero
        obtain ⟨rfl, hzero⟩ := hzero
        rw [unrollAxes, unroll_zero, ih hc.2 (Nat.succ.inj hs) hzero]

/-- A roll of a roll shows what the roll by the sums shows. -/
theorem unrollAxes_combineShifts {coords as bs shape : List Nat} (hc : Within shape coords)
    (ha : List.Forall₂ ShiftFits as shape) (hb : List.Forall₂ ShiftFits bs shape) :
    unrollAxes (unrollAxes coords bs shape) as shape =
      unrollAxes coords (combineShifts as bs shape) shape := by
  induction ha generalizing coords bs with
  | nil =>
    obtain rfl := List.forall₂_nil_right_iff.1 hb
    cases coords <;> rfl
  | @cons a n as shape ha _ ih =>
    obtain ⟨b, bs, hb', hrest, rfl⟩ := List.forall₂_cons_right_iff.1 hb
    cases coords with
    | nil => exact hc.elim
    | cons i coords =>
      have hn : ¬ n = 0 := fun hn => Nat.not_lt_zero i (hn ▸ hc.1)
      have ha : a < n := ha.resolve_right fun h => hn h.1
      have hb : b < n := hb'.resolve_right fun h => hn h.1
      simp only [unrollAxes, combineShifts, unroll_unroll hc.1 ha hb, ih hc.2 hrest]

/-! ## Shifts in row-major order -/

/-- The coordinates beneath a roll of all elements in row-major order. -/
def unrollFlat (coords : List Nat) (shift : Nat) (shape : List Nat) : List Nat :=
  unravel shape (unroll (offset shape coords) shift (sizeOf shape))

theorem within_unrollFlat {coords shape : List Nat} (hc : Within shape coords) (s : Nat) :
    Within shape (unrollFlat coords s shape) :=
  within_unravel (Nat.zero_lt_of_lt (offset_lt hc))

theorem unrollFlat_zero {coords shape : List Nat} (hc : Within shape coords) :
    unrollFlat coords 0 shape = coords := by
  rw [unrollFlat, unroll_zero, unravel_offset hc]

/-- A roll of all elements of such a roll shows what the roll by the sum shows. -/
theorem unrollFlat_unrollFlat {coords shape : List Nat} {a b : Nat} (hc : Within shape coords)
    (ha : a < sizeOf shape) (hb : b < sizeOf shape) :
    unrollFlat (unrollFlat coords b shape) a shape =
      unrollFlat coords (addShifts a b (sizeOf shape)) shape := by
  have hlt := offset_lt hc
  rw [unrollFlat, unrollFlat, offset_unravel (unroll_lt hlt hb), unroll_unroll hlt ha hb, unrollFlat]

/-! ## Slices -/

namespace AxisSlice

/-- Slicing a range again stays within the axis. -/
theorem Fits.range_range {start step count start' step' count' n : Nat}
    (h : (range start step count).Fits n) (h' : (range start' step' count').Fits count) :
    (range (start + start' * step) (step * step') count').Fits n := by
  refine ⟨Nat.mul_pos h.1 h'.1, fun hpos => ?_, fun hone => ?_⟩
  · have hlt := h.position_lt (h'.2.1 hpos)
    rw [Nat.add_mul, ← Nat.add_assoc, Nat.mul_assoc, Nat.mul_comm step' step] at hlt
    exact hlt
  · obtain rfl : step = 1 := Nat.eq_one_of_mul_eq_one_right hone
    obtain rfl : step' = 1 := Nat.eq_one_of_mul_eq_one_left hone
    have := h.stop_le
    have := h'.2.2 rfl
    omega

/-- A slice of a slice fits wherever the two do, and leaves the axes that the second one leaves. -/
theorem FitsAll.compose {inner outer : List AxisSlice} {shape : List Nat}
    (h : FitsAll inner shape) (h' : FitsAll outer (counts inner)) :
    FitsAll (compose inner outer) shape ∧ counts (AxisSlice.compose inner outer) = counts outer := by
  induction h generalizing outer with
  | nil =>
    obtain rfl := List.forall₂_nil_right_iff.1 h'
    exact ⟨.nil, rfl⟩
  | @cons axis n inner shape hfit _ ih =>
    cases axis with
    | fixed c =>
      obtain ⟨hfits, hcounts⟩ := ih h'
      exact ⟨.cons hfit hfits, hcounts⟩
    | range start step count =>
      obtain ⟨axis, outer, hfit', hrest, rfl⟩ := List.forall₂_cons_right_iff.1 h'
      obtain ⟨hfits, hcounts⟩ := ih hrest
      cases axis with
      | fixed c => exact ⟨.cons (hfit.position_lt hfit') hfits, hcounts⟩
      | range start' step' count' =>
        exact ⟨.cons (hfit.range_range hfit') hfits, congrArg (count' :: ·) hcounts⟩

/-- A slice of a slice shows what the two show one after the other. -/
theorem FitsAll.place_compose {inner outer : List AxisSlice} {shape coords : List Nat}
    (h : FitsAll inner shape) (h' : FitsAll outer (counts inner))
    (hc : Within (counts outer) coords) :
    place inner (place outer coords) = place (AxisSlice.compose inner outer) coords := by
  induction h generalizing outer coords with
  | nil => rfl
  | @cons axis n inner shape _ _ ih =>
    cases axis with
    | fixed c => exact congrArg (c :: ·) (ih h' hc)
    | range start step count =>
      obtain ⟨axis, outer, _, hrest, rfl⟩ := List.forall₂_cons_right_iff.1 h'
      cases axis with
      | fixed c => exact congrArg ((start + c * step) :: ·) (ih hrest hc)
      | range start' step' count' =>
        cases coords with
        | nil => exact hc.elim
        | cons i coords =>
          have hhead : start + (start' + i * step') * step =
              start + start' * step + i * (step * step') := by
            rw [Nat.add_mul, ← Nat.add_assoc, Nat.mul_assoc, Nat.mul_comm step' step]
          simp only [place, AxisSlice.compose, hhead, ih hrest hc.2]

theorem fits_whole (n : Nat) : (whole n).Fits n := by
  refine ⟨Nat.one_pos, fun hpos => ?_, fun _ => Nat.zero_le n⟩
  omega

theorem counts_map_whole (shape : List Nat) : counts (shape.map whole) = shape := by
  induction shape with
  | nil => rfl
  | cons n shape ih => exact congrArg (n :: ·) ih

theorem place_whole_cons (n i : Nat) (axes : List AxisSlice) (coords : List Nat) :
    place (whole n :: axes) (i :: coords) = i :: place axes coords := by
  show (0 + i * 1) :: place axes coords = _
  rw [Nat.mul_one, Nat.zero_add]

/-- Keeping every axis whole leaves coordinates alone. -/
theorem place_map_whole {shape coords : List Nat} (hc : coords.length = shape.length) :
    place (shape.map whole) coords = coords := by
  induction shape generalizing coords with
  | nil =>
    obtain rfl := List.eq_nil_of_length_eq_zero hc
    rfl
  | cons n shape ih =>
    cases coords with
    | nil => cases hc
    | cons i coords => rw [List.map_cons, place_whole_cons, ih (Nat.succ.inj hc)]

end AxisSlice

/-- What a sequence that succeeds has gone through. -/
theorem bind_eq_ok {α β : Type} {x : Except Error α} {f : α → Except Error β} {y : β}
    (h : x >>= f = .ok y) : ∃ a, x = .ok a ∧ f a = .ok y := by
  cases x with
  | error e => cases h
  | ok a => exact ⟨a, rfl, h⟩

namespace Accessor

theorem le_of_bound? {n : Nat} {index : Int} {p : Nat} (h : bound? n index = .ok p) : p ≤ n := by
  unfold bound? at h
  split at h
  · split at h
    · next hle =>
      cases h
      exact hle
    · cases h
  · cases h

/-- The positions that a range counts lie below its end. -/
theorem count_mul_lt {start stop step : Nat} (hstep : 0 < step) (h : 0 < count start stop step) :
    start + (count start stop step - 1) * step < stop := by
  have hdiv : count start stop step * step ≤ stop - start + step - 1 := Nat.div_mul_le_self _ step
  have hle : step ≤ count start stop step * step := Nat.le_mul_of_pos_left step h
  rw [Nat.sub_mul, Nat.one_mul]
  omega

/-- A range between two positions of an axis lies within it. -/
theorem range_fits {n first last step : Nat} (hstep : 0 < step) (hfirst : first ≤ n)
    (hlast : last ≤ n) : (AxisSlice.range first step (count first last step)).Fits n :=
  ⟨hstep, fun hpos => Nat.lt_of_lt_of_le (count_mul_lt hstep hpos) hlast, fun _ => hfirst⟩

/-- A resolved accessor lies within the axis that it was resolved for. -/
theorem resolve_fits {n : Nat} {a : Accessor} {axis : AxisSlice} (h : a.resolve n = .ok axis) :
    axis.Fits n := by
  cases a with
  | «at» index =>
    simp only [resolve] at h
    split at h
    · split at h
      · next hlt =>
        cases h
        exact hlt
      · cases h
    · cases h
  | range start stop step =>
    simp only [resolve] at h
    split at h
    · cases h
    next hstep =>
    have hstep : 0 < step.toNat := by omega
    obtain ⟨first, hfirst, h⟩ := bind_eq_ok h
    have hfirst := le_of_bound? hfirst
    cases stop with
    | none =>
      cases h
      exact range_fits hstep hfirst (Nat.le_refl n)
    | some stop =>
      obtain ⟨last, hlast, h⟩ := bind_eq_ok h
      cases h
      exact range_fits hstep hfirst (le_of_bound? hlast)

/-- Resolved accessors lie within the axes that they were resolved for. -/
theorem resolveAll_fits {shape : List Nat} {accessors : List Accessor} {axes : List AxisSlice}
    (h : resolveAll shape accessors = .ok axes) : AxisSlice.FitsAll axes shape := by
  induction shape generalizing accessors axes with
  | nil =>
    cases h
    exact .nil
  | cons n shape ih =>
    cases accessors with
    | nil =>
      obtain ⟨rest, hrest, h⟩ := bind_eq_ok h
      cases h
      exact .cons (AxisSlice.fits_whole n) (ih hrest)
    | cons a accessors =>
      obtain ⟨first, hfirst, h⟩ := bind_eq_ok h
      obtain ⟨rest, hrest, h⟩ := bind_eq_ok h
      cases h
      exact .cons (resolve_fits hfirst) (ih hrest)

end Accessor

/-! ## Masks -/

/-- The table of a mask of a mask: the marked entries of the first table. -/
theorem masked_table_compose {current : Array Nat} {n : Nat} {marked : List Nat}
    (hasc : current.toList.Pairwise (· < ·)) (hlt : ∀ p ∈ current.toList, p < n)
    (hmarked : marked.Pairwise (· < ·)) (hbound : ∀ p ∈ marked, p < current.size) :
    (marked.map fun p => current.getD p 0).Pairwise (· < ·) ∧
      ∀ q ∈ marked.map fun p => current.getD p 0, q < n := by
  constructor
  · refine List.pairwise_map.2 (hmarked.imp_of_mem fun {p q} hp hq hpq => ?_)
    rw [getD_eq_getElem_toList (hbound p hp), getD_eq_getElem_toList (hbound q hq)]
    exact List.pairwise_iff_getElem.1 hasc _ _ _ _ hpq
  · intro q hq
    obtain ⟨p, hp, rfl⟩ := List.mem_map.1 hq
    rw [getD_eq_getElem_toList (hbound p hp)]
    exact hlt _ (List.getElem_mem _)

end Orthotope
