import Mathlib.Data.List.Forall2
import Mathlib.Data.List.Nodup
import Orthotope.Layout.Lemmas
import Orthotope.View

/-!
# Views that fit

A view is only data: nothing in the type `View` ties its transform to the two shapes around it.
`View.Fits` states the tie, one clause for each transform. A view that fits takes coordinates of its
shape to coordinates beneath (`View.Fits.within_coords`) and positions below its size to positions
below the size beneath (`View.Fits.position_lt`), and never takes two of them to the same
(`View.Fits.position_injective`).

A transform either works on coordinates or, if it is `Transform.flat`, on flat positions. The facts
about positions are proved for the two sorts separately; `View.position_offset` is the bridge to the
coordinates.
-/

namespace Orthotope

/-! ## Coordinates axis by axis -/

/-- Coordinates lie in a shape if each is below the length of its axis. -/
theorem within_iff_forall₂ {shape coords : List Nat} :
    Within shape coords ↔ List.Forall₂ (fun i n => i < n) coords shape := by
  induction shape generalizing coords with
  | nil => cases coords <;> simp [Within]
  | cons n shape ih => cases coords <;> simp [Within, ih]

/-- Coordinates in reverse order lie in the shape in reverse order. -/
theorem Within.reverse {shape coords : List Nat} (h : Within shape coords) :
    Within shape.reverse coords.reverse := by
  rw [within_iff_forall₂] at h ⊢
  exact List.forall₂_reverse_iff.2 h

/-- Two coordinate lists in a shape with the same position are the same. -/
theorem Within.eq_of_offset_eq {shape coords coords' : List Nat} (h : Within shape coords)
    (h' : Within shape coords') (heq : offset shape coords = offset shape coords') :
    coords = coords' := by
  rw [← unravel_offset h, heq, unravel_offset h']

namespace AxisSlice

/-- The lengths of the axes that a slice leaves. -/
def counts : List AxisSlice → List Nat
  | [] => []
  | fixed _ :: axes => counts axes
  | range _ _ count :: axes => count :: counts axes

/-- An entry of a slice lies within an axis of the given length: a fixed coordinate is below the
length, and so is the last position of a range that is not empty. An empty range may start anywhere
unless its step is one. -/
def Fits : AxisSlice → Nat → Prop
  | fixed coord, n => coord < n
  | range start step count, n =>
    0 < step ∧ (0 < count → start + (count - 1) * step < n) ∧ (step = 1 → start ≤ n)

/-- Each entry of a slice lies within its axis. -/
def FitsAll (axes : List AxisSlice) (shape : List Nat) : Prop := List.Forall₂ Fits axes shape

/-- The positions of the axis that an entry of a slice selects, in the order of the slice. -/
def positions : AxisSlice → List Nat
  | fixed p => [p]
  | range start step count => (List.range count).map fun i => start + i * step

theorem mem_positions_range {start step count p : Nat} :
    p ∈ (range start step count).positions ↔ ∃ i < count, start + i * step = p := by
  simp [positions]

theorem pairwise_positions {start step count : Nat} (hstep : 0 < step) :
    (range start step count).positions.Pairwise (· < ·) := by
  refine List.pairwise_map.2 (List.pairwise_lt_range.imp fun hij => ?_)
  exact Nat.add_lt_add_left ((Nat.mul_lt_mul_right hstep).2 hij) _

theorem Fits.position_lt {start step count n i : Nat} (h : (range start step count).Fits n)
    (hi : i < count) : start + i * step < n := by
  have hlast := h.2.1 (Nat.zero_lt_of_lt hi)
  have hle : i * step ≤ (count - 1) * step := Nat.mul_le_mul_right step (by omega)
  omega

/-- A range of neighbours ends within the axis, even if it is empty. -/
theorem Fits.stop_le {start count n : Nat} (h : (range start 1 count).Fits n) :
    start + count ≤ n := by
  obtain ⟨-, hlast, hstart⟩ := h
  have := hstart rfl
  rcases Nat.eq_zero_or_pos count with rfl | hpos
  · omega
  · have := hlast hpos
    omega

/-- The coordinates beneath a slice lie in the shape beneath. -/
theorem FitsAll.within_place {axes : List AxisSlice} {shape coords : List Nat}
    (h : FitsAll axes shape) (hc : Within (counts axes) coords) :
    Within shape (place axes coords) := by
  induction h generalizing coords with
  | nil => cases coords <;> simp_all [counts, place, Within]
  | @cons axis n axes shape hfit hrest ih =>
    cases axis with
    | fixed c => exact ⟨hfit, ih hc⟩
    | range start step count =>
      cases coords with
      | nil => exact hc.elim
      | cons i coords => exact ⟨hfit.position_lt hc.1, ih hc.2⟩

/-- A slice shows no coordinates twice, since its steps are positive. -/
theorem FitsAll.place_injective {axes : List AxisSlice} {shape coords coords' : List Nat}
    (h : FitsAll axes shape) (hc : Within (counts axes) coords)
    (hc' : Within (counts axes) coords') (heq : place axes coords = place axes coords') :
    coords = coords' := by
  induction h generalizing coords coords' with
  | nil => cases coords <;> cases coords' <;> simp_all [counts, Within]
  | @cons axis n axes shape hfit hrest ih =>
    cases axis with
    | fixed c => exact ih hc hc' (List.cons.inj heq).2
    | range start step count =>
      cases coords with
      | nil => exact hc.elim
      | cons i coords =>
        cases coords' with
        | nil => exact hc'.elim
        | cons j coords' =>
          obtain ⟨hhead, htail⟩ := List.cons.inj heq
          have hmul : i * step = j * step := Nat.add_left_cancel hhead
          rw [Nat.eq_of_mul_eq_mul_right hfit.1 hmul, ih hc.2 hc'.2 htail]

end AxisSlice

/-- Whether a transform works on flat positions and leaves coordinates alone. -/
def Transform.flat : Transform → Bool
  | .flatRolled _ | .reshaped => true
  | _ => false

/-! ## Shifts -/

/-- A reduced shift of an axis of length `n`. An empty axis is not shifted. -/
def ShiftFits (s n : Nat) : Prop := s < n ∨ (n = 0 ∧ s = 0)

theorem unroll_lt {i s n : Nat} (hi : i < n) (hs : s < n) : unroll i s n < n := by
  unfold unroll; split <;> omega

theorem unroll_injective {i j s n : Nat} (hi : i < n) (hj : j < n) (hs : s < n)
    (h : unroll i s n = unroll j s n) : i = j := by
  unfold unroll at h; split at h <;> split at h <;> omega

/-- A roll of each axis keeps coordinates in the shape. -/
theorem within_unrollAxes {shifts shape coords : List Nat} (h : List.Forall₂ ShiftFits shifts shape)
    (hc : Within shape coords) : Within shape (unrollAxes coords shifts shape) := by
  induction h generalizing coords with
  | nil => cases coords <;> simp_all [unrollAxes, Within]
  | @cons s n shifts shape hs _ ih =>
    cases coords with
    | nil => exact hc.elim
    | cons i coords =>
      have hlt : s < n := hs.resolve_right fun h => Nat.not_lt_zero i (h.1 ▸ hc.1)
      exact ⟨unroll_lt hc.1 hlt, ih hc.2⟩

theorem unrollAxes_injective {shifts shape coords coords' : List Nat}
    (h : List.Forall₂ ShiftFits shifts shape) (hc : Within shape coords)
    (hc' : Within shape coords')
    (heq : unrollAxes coords shifts shape = unrollAxes coords' shifts shape) : coords = coords' := by
  induction h generalizing coords coords' with
  | nil => cases coords <;> cases coords' <;> simp_all [Within]
  | @cons s n shifts shape hs _ ih =>
    cases coords with
    | nil => exact hc.elim
    | cons i coords =>
      cases coords' with
      | nil => exact hc'.elim
      | cons j coords' =>
        have hlt : s < n := hs.resolve_right fun h => Nat.not_lt_zero i (h.1 ▸ hc.1)
        obtain ⟨hhead, htail⟩ := List.cons.inj heq
        rw [unroll_injective hc.1 hc'.1 hlt hhead, ih hc.2 hc'.2 htail]

/-! ## Views -/

/-- An entry of a table, by its place. -/
theorem getD_eq_getElem_toList {ps : Array Nat} {i : Nat} (h : i < ps.toList.length) :
    ps.getD i 0 = ps.toList[i] := by
  have h' : i < ps.size := h
  simp [Array.getD, h']

namespace View

/-- The transform of a view fits the shapes beneath and above it. -/
def Fits (v : View) : Prop :=
  match v.transform with
  | .transposed => v.shape = v.source.reverse
  | .sliced axes => AxisSlice.FitsAll axes v.source ∧ v.shape = AxisSlice.counts axes
  | .rolled shifts => v.shape = v.source ∧ List.Forall₂ ShiftFits shifts v.shape
  | .flatRolled shift => v.shape = v.source ∧ shift < v.size
  | .masked positions => ∃ n rest, v.source = n :: rest ∧ v.shape = positions.size :: rest ∧
      positions.toList.Pairwise (· < ·) ∧ ∀ p ∈ positions.toList, p < n
  | .reshaped => v.size = sizeOf v.source

section
variable {source shape : List Nat}

@[simp] theorem fits_transposed : (⟨source, shape, .transposed⟩ : View).Fits ↔
    shape = source.reverse := Iff.rfl
@[simp] theorem fits_sliced {axes : List AxisSlice} : (⟨source, shape, .sliced axes⟩ : View).Fits ↔
    AxisSlice.FitsAll axes source ∧ shape = AxisSlice.counts axes := Iff.rfl
@[simp] theorem fits_rolled {shifts : List Nat} : (⟨source, shape, .rolled shifts⟩ : View).Fits ↔
    shape = source ∧ List.Forall₂ ShiftFits shifts shape := Iff.rfl
@[simp] theorem fits_flatRolled {shift : Nat} : (⟨source, shape, .flatRolled shift⟩ : View).Fits ↔
    shape = source ∧ shift < sizeOf shape := Iff.rfl
@[simp] theorem fits_masked {positions : Array Nat} :
    (⟨source, shape, .masked positions⟩ : View).Fits ↔ ∃ n rest, source = n :: rest ∧
      shape = positions.size :: rest ∧ positions.toList.Pairwise (· < ·) ∧
      ∀ p ∈ positions.toList, p < n := Iff.rfl
@[simp] theorem fits_reshaped : (⟨source, shape, .reshaped⟩ : View).Fits ↔
    sizeOf shape = sizeOf source := Iff.rfl

end

variable {v : View}

/-- The coordinates beneath lie in the shape beneath. -/
theorem Fits.within_coords (h : v.Fits) (hflat : v.transform.flat = false) {cs : List Nat}
    (hc : Within v.shape cs) : Within v.source (v.coords cs) := by
  obtain ⟨source, shape, transform⟩ := v
  cases transform with
  | transposed =>
    obtain rfl := fits_transposed.1 h
    have hrev := hc.reverse
    rwa [List.reverse_reverse] at hrev
  | sliced axes =>
    obtain ⟨hfit, rfl⟩ := fits_sliced.1 h
    exact hfit.within_place hc
  | rolled shifts =>
    obtain ⟨rfl, hfit⟩ := fits_rolled.1 h
    exact within_unrollAxes hfit hc
  | masked positions =>
    obtain ⟨n, rest, rfl, rfl, -, hlt⟩ := fits_masked.1 h
    cases cs with
    | nil => exact hc.elim
    | cons i cs =>
      refine ⟨?_, hc.2⟩
      show positions.getD i 0 < n
      rw [getD_eq_getElem_toList hc.1]
      exact hlt _ (List.getElem_mem _)
  | flatRolled _ | reshaped => cases hflat

/-- Different coordinates show different coordinates beneath. -/
theorem Fits.coords_injective (h : v.Fits) (hflat : v.transform.flat = false) {cs cs' : List Nat}
    (hc : Within v.shape cs) (hc' : Within v.shape cs') (heq : v.coords cs = v.coords cs') :
    cs = cs' := by
  obtain ⟨source, shape, transform⟩ := v
  cases transform with
  | transposed => exact List.reverse_injective heq
  | sliced axes =>
    obtain ⟨hfit, rfl⟩ := fits_sliced.1 h
    exact hfit.place_injective hc hc' heq
  | rolled shifts =>
    obtain ⟨rfl, hfit⟩ := fits_rolled.1 h
    exact unrollAxes_injective hfit hc hc' heq
  | masked positions =>
    obtain ⟨n, rest, rfl, rfl, hasc, -⟩ := fits_masked.1 h
    cases cs with
    | nil => exact hc.elim
    | cons i cs =>
      cases cs' with
      | nil => exact hc'.elim
      | cons j cs' =>
        obtain ⟨hhead, rfl⟩ := List.cons.inj heq
        rw [getD_eq_getElem_toList hc.1, getD_eq_getElem_toList hc'.1] at hhead
        rw [(List.Nodup.getElem_inj_iff (hasc.imp Nat.ne_of_lt)).1 hhead]
  | flatRolled _ | reshaped => cases hflat

/-! ## Positions -/

/-- A transform on coordinates takes the position of coordinates to the position of those
beneath. -/
theorem position_of_not_flat (hflat : v.transform.flat = false) (p : Nat) :
    v.position p = offset v.source (v.coords (unravel v.shape p)) := by
  obtain ⟨source, shape, transform⟩ := v
  cases transform <;> first | rfl | cases hflat

theorem position_offset (hflat : v.transform.flat = false) {cs : List Nat}
    (hc : Within v.shape cs) : v.position (offset v.shape cs) = offset v.source (v.coords cs) := by
  rw [position_of_not_flat hflat, unravel_offset hc]

/-- A position below the size shows one below the size beneath. -/
theorem Fits.position_lt (h : v.Fits) {p : Nat} (hp : p < v.size) :
    v.position p < sizeOf v.source := by
  by_cases hflat : v.transform.flat = false
  · have hc : Within v.shape (unravel v.shape p) := within_unravel (Nat.zero_lt_of_lt hp)
    rw [position_of_not_flat hflat]
    exact offset_lt (h.within_coords hflat hc)
  · obtain ⟨source, shape, transform⟩ := v
    cases transform with
    | flatRolled shift =>
      obtain ⟨rfl, hshift⟩ := fits_flatRolled.1 h
      exact unroll_lt hp hshift
    | reshaped => exact Nat.lt_of_lt_of_eq hp h
    | _ => exact absurd rfl hflat

/-- Different positions below the size show different positions beneath. -/
theorem Fits.position_injective (h : v.Fits) {p q : Nat} (hp : p < v.size) (hq : q < v.size)
    (heq : v.position p = v.position q) : p = q := by
  by_cases hflat : v.transform.flat = false
  · have hcp : Within v.shape (unravel v.shape p) := within_unravel (Nat.zero_lt_of_lt hp)
    have hcq : Within v.shape (unravel v.shape q) := within_unravel (Nat.zero_lt_of_lt hq)
    rw [position_of_not_flat hflat, position_of_not_flat hflat] at heq
    have hcoords := (h.within_coords hflat hcp).eq_of_offset_eq (h.within_coords hflat hcq) heq
    rw [← offset_unravel hp, h.coords_injective hflat hcp hcq hcoords, offset_unravel hq]
  · obtain ⟨source, shape, transform⟩ := v
    cases transform with
    | flatRolled shift =>
      obtain ⟨rfl, hshift⟩ := fits_flatRolled.1 h
      exact unroll_injective hp hq hshift heq
    | reshaped => exact heq
    | _ => exact absurd rfl hflat

end View

end Orthotope
