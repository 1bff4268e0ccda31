import Orthotope.Proofs.View.Fit

/-!
# Runs are contiguous beneath

`View.reach` claims that the positions of a view from some position on are consecutive beneath as
well. `View.Fits.position_add` proves the claim for every transform, and `View.Fits.position_stride`
puts it the way a walk uses it. A stretch of one walk step then also ends below the size beneath
(`View.Fits.stride_le`).

Most transforms move along a row of the last axis, so the proof splits shapes and coordinates off
their last entry (`offset_concat`, `unravel_concat`). What a transform does to the last coordinate
is all that differs between them (`View.position_add_of_row`).
-/

namespace Orthotope

/-! ## The last axis -/

/-- A pointwise relation relates the last entries, too. -/
theorem forall₂_concat_inv {α β : Type} {R : α → β → Prop} {xs : List α} {x : α} {ys : List β}
    (h : List.Forall₂ R (xs ++ [x]) ys) :
    ∃ front y, ys = front ++ [y] ∧ List.Forall₂ R xs front ∧ R x y := by
  induction xs generalizing ys with
  | nil =>
    obtain ⟨y, ys, hxy, hrest, rfl⟩ := List.forall₂_cons_left_iff.1 h
    obtain rfl := List.forall₂_nil_left_iff.1 hrest
    exact ⟨[], y, rfl, .nil, hxy⟩
  | cons z xs ih =>
    obtain ⟨y, ys, hzy, hrest, rfl⟩ := List.forall₂_cons_left_iff.1 h
    obtain ⟨front, last, rfl, hfront, hlast⟩ := ih hrest
    exact ⟨y :: front, last, rfl, .cons hzy hfront, hlast⟩

theorem offset_concat {shape coords : List Nat} (h : coords.length = shape.length) (n i : Nat) :
    offset (shape ++ [n]) (coords ++ [i]) = offset shape coords * n + i := by
  unfold offset
  rw [List.zip_append h.symm, List.foldl_append]
  rfl

theorem sizeOf_concat (shape : List Nat) (n : Nat) : sizeOf (shape ++ [n]) = sizeOf shape * n := by
  induction shape with
  | nil => simp
  | cons m shape ih => rw [List.cons_append, sizeOf_cons, ih, sizeOf_cons, Nat.mul_assoc]

theorem unravel_concat (shape : List Nat) (n p : Nat) :
    unravel (shape ++ [n]) p = unravel shape (p / n) ++ [p % n] := by
  induction shape with
  | nil => simp [unravel]
  | cons m shape ih =>
    rw [List.cons_append, unravel, ih, sizeOf_concat, Nat.mul_comm, ← Nat.div_div_eq_div_mul]
    rfl

/-- Within a row the row stays and the last coordinate moves. -/
theorem unravel_concat_add (shape : List Nat) {n p k : Nat} (h : p % n + k < n) :
    unravel (shape ++ [n]) (p + k) = unravel shape (p / n) ++ [p % n + k] := by
  have hpos : 0 < n := Nat.zero_lt_of_lt h
  have hp : p + k = n * (p / n) + (p % n + k) := by
    have := Nat.div_add_mod p n
    omega
  rw [unravel_concat, hp, Nat.mul_add_mod, Nat.mod_eq_of_lt h, Nat.mul_add_div hpos,
    Nat.div_eq_of_lt h, Nat.add_zero]

/-- A roll of each axis treats the last axis on its own. -/
theorem unrollAxes_concat {coords shifts shape : List Nat} (hc : coords.length = shape.length)
    (hs : shifts.length = shape.length) (i s n : Nat) :
    unrollAxes (coords ++ [i]) (shifts ++ [s]) (shape ++ [n]) =
      unrollAxes coords shifts shape ++ [unroll i s n] := by
  induction shape generalizing coords shifts with
  | nil =>
    obtain rfl := List.eq_nil_of_length_eq_zero hc
    obtain rfl := List.eq_nil_of_length_eq_zero hs
    rfl
  | cons m shape ih =>
    cases coords with
    | nil => cases hc
    | cons j coords =>
      cases shifts with
      | nil => cases hs
      | cons t shifts =>
        exact congrArg (unroll j t m :: ·) (ih (Nat.succ.inj hc) (Nat.succ.inj hs))

@[simp] theorem length_unrollAxes {coords shifts shape : List Nat} (hc : coords.length = shape.length)
    (hs : shifts.length = shape.length) : (unrollAxes coords shifts shape).length = shape.length := by
  induction shape generalizing coords shifts with
  | nil =>
    obtain rfl := List.eq_nil_of_length_eq_zero hc
    rfl
  | cons m shape ih =>
    cases coords with
    | nil => cases hc
    | cons j coords =>
      cases shifts with
      | nil => cases hs
      | cons t shifts => exact congrArg (· + 1) (ih (Nat.succ.inj hc) (Nat.succ.inj hs))

/-- On a circle, neighbours show neighbours unless the start of the circle lies between them. -/
theorem unroll_add {i k s n : Nat} (hs : s ≤ n) (h : s ≤ i ∨ i + k < s) :
    unroll (i + k) s n = unroll i s n + k := by
  unfold unroll; split <;> split <;> omega

namespace AxisSlice

theorem counts_concat (axes : List AxisSlice) (start step count : Nat) :
    counts (axes ++ [range start step count]) = counts axes ++ [count] := by
  induction axes with
  | nil => rfl
  | cons axis axes ih => cases axis <;> simp [counts, ih]

theorem length_place {axes : List AxisSlice} {coords : List Nat}
    (h : coords.length = (counts axes).length) : (place axes coords).length = axes.length := by
  induction axes generalizing coords with
  | nil => rfl
  | cons axis axes ih =>
    cases axis with
    | fixed c => exact congrArg (· + 1) (ih h)
    | range start step count =>
      cases coords with
      | nil => cases h
      | cons i coords => exact congrArg (· + 1) (ih (Nat.succ.inj h))

/-- A slice treats a range on the last axis on its own. -/
theorem place_concat {axes : List AxisSlice} {coords : List Nat}
    (h : coords.length = (counts axes).length) (start step count i : Nat) :
    place (axes ++ [range start step count]) (coords ++ [i]) =
      place axes coords ++ [start + i * step] := by
  induction axes generalizing coords with
  | nil =>
    obtain rfl := List.eq_nil_of_length_eq_zero h
    rfl
  | cons axis axes ih =>
    cases axis with
    | fixed c => exact congrArg (c :: ·) (ih h)
    | range start' step' count' =>
      cases coords with
      | nil => cases h
      | cons j coords => exact congrArg ((start' + j * step') :: ·) (ih (Nat.succ.inj h))

end AxisSlice

/-- The entries of a stretch exceed the first one by their distance from it. -/
theorem getD_of_lt_stretch {ps : Array Nat} {i k left : Nat} (h : k < stretch ps i left) :
    ps.getD (i + k) 0 = ps.getD i 0 + k := by
  fun_induction stretch ps i left generalizing k with
  | case1 => omega
  | case2 =>
    obtain rfl : k = 0 := by omega
    rfl
  | case3 i left hnext ih =>
    cases k with
    | zero => rfl
    | succ k =>
      have := ih (k := k) (by omega)
      rw [show i + (k + 1) = i + 1 + k by omega, this, hnext]
      omega
  | case4 =>
    obtain rfl : k = 0 := by omega
    rfl

namespace View

variable {v : View}

/-- Positions of one row are consecutive beneath if moving along the last axis is. -/
theorem position_add_of_row {front : List Nat} {n p k : Nat} (hflat : v.transform.flat = false)
    (hshape : v.shape = front ++ [n]) (hk : p % n + k < n)
    (hrow : ∀ cs : List Nat, cs.length = front.length →
      offset v.source (v.coords (cs ++ [p % n + k])) =
        offset v.source (v.coords (cs ++ [p % n])) + k) :
    v.position (p + k) = v.position p + k := by
  rw [position_of_not_flat hflat, position_of_not_flat hflat, hshape, unravel_concat_add _ hk,
    unravel_concat]
  exact hrow _ (length_unravel ..)

/-- The row of the last axis ends where `rowLeft` says. -/
theorem lt_of_lt_rowLeft {front : List Nat} {n p k left : Nat} (hshape : v.shape = front ++ [n])
    (hlt : p + k < v.size) (hk : k < v.rowLeft p left) : p % n + k < n := by
  have hpos : 0 < n := by
    rw [size, hshape, sizeOf_concat] at hlt
    exact Nat.pos_of_mul_pos_left (Nat.zero_lt_of_lt hlt)
  have := Nat.mod_lt p hpos
  rw [rowLeft, hshape, List.getLast?_concat] at hk
  simp only at hk
  omega

/-- Within the row of a range of neighbours, a slice moves by one position at a time. -/
theorem position_add_sliced {source : List Nat} {axes : List AxisSlice} {start count p k : Nat}
    (h : AxisSlice.FitsAll (axes ++ [.range start 1 count]) source) (hk : p % count + k < count) :
    let v : View := ⟨source, AxisSlice.counts (axes ++ [.range start 1 count]),
      .sliced (axes ++ [.range start 1 count])⟩
    v.position (p + k) = v.position p + k := by
  intro v
  refine position_add_of_row rfl (AxisSlice.counts_concat ..) hk fun cs hcs => ?_
  obtain ⟨front, n, rfl, hfront, -⟩ := forall₂_concat_inv h
  have hlen : (AxisSlice.place axes cs).length = front.length := by
    rw [AxisSlice.length_place hcs, hfront.length_eq]
  simp only [v, coords, AxisSlice.place_concat hcs, offset_concat hlen]
  omega

/-- Within a row, a roll moves by one position at a time up to the start of the circle. -/
theorem position_add_rolled {front shifts : List Nat} {n s p k : Nat}
    (h : List.Forall₂ ShiftFits (shifts ++ [s]) (front ++ [n])) (hk : p % n + k < n)
    (hs : s ≤ p % n ∨ p % n + k < s) :
    let v : View := ⟨front ++ [n], front ++ [n], .rolled (shifts ++ [s])⟩
    v.position (p + k) = v.position p + k := by
  intro v
  refine position_add_of_row rfl rfl hk fun cs hcs => ?_
  obtain ⟨front', n', heq, hfront, hfit⟩ := forall₂_concat_inv h
  obtain ⟨rfl, hn⟩ := List.append_inj' heq rfl
  obtain rfl := List.singleton_inj.1 hn
  have hlen : (unrollAxes cs shifts front).length = front.length :=
    length_unrollAxes hcs hfront.length_eq
  have hle : s ≤ n := by
    rcases hfit with hlt | ⟨rfl, rfl⟩ <;> omega
  simp only [v, coords, unrollAxes_concat hcs hfront.length_eq, offset_concat hlen,
    unroll_add hle hs]
  omega

/-- A mask leaves the rows of all axes but the first alone. -/
theorem position_add_masked {positions : Array Nat} {front : List Nat} {m n p k : Nat}
    (hk : p % n + k < n) :
    let v : View := ⟨m :: (front ++ [n]), positions.size :: (front ++ [n]), .masked positions⟩
    v.position (p + k) = v.position p + k := by
  intro v
  refine position_add_of_row rfl List.cons_append.symm hk fun cs hcs => ?_
  cases cs with
  | nil => cases hcs
  | cons i cs =>
    have hlen : (positions.getD i 0 :: cs).length = (m :: front).length := hcs
    have hoffset : ∀ j, offset v.source (v.coords (i :: cs ++ [j])) =
        offset (m :: front) (positions.getD i 0 :: cs) * n + j := offset_concat hlen n
    rw [hoffset, hoffset, Nat.add_assoc]

/-- The positions of a mask of the only axis are listed in its table. -/
theorem position_masked_one {positions : Array Nat} {m p : Nat} (hp : p < positions.size) :
    (⟨[m], [positions.size], .masked positions⟩ : View).position p = positions.getD p 0 := by
  simp [position, coords, unravel, offset, Nat.mod_eq_of_lt hp]

/-- The positions within reach are consecutive beneath. -/
theorem Fits.position_add (h : v.Fits) {p k left : Nat} (hlt : p + k < v.size)
    (hk : k < v.reach p left) : v.position (p + k) = v.position p + k := by
  obtain ⟨source, shape, transform⟩ := v
  cases transform with
  | transposed =>
    obtain rfl : k = 0 := Nat.lt_one_iff.1 hk
    rfl
  | reshaped => rfl
  | flatRolled shift =>
    obtain ⟨rfl, hshift⟩ := fits_flatRolled.1 h
    have hk : k < sizeOf shape - unroll p shift (sizeOf shape) :=
      Nat.lt_of_lt_of_le hk (Nat.min_le_right ..)
    have hlt : p + k < sizeOf shape := hlt
    refine unroll_add (Nat.le_of_lt hshift) ?_
    unfold unroll at hk
    split at hk <;> omega
  | sliced axes =>
    obtain ⟨hfit, rfl⟩ := fits_sliced.1 h
    rcases List.eq_nil_or_concat' axes with rfl | ⟨front, last, rfl⟩
    · obtain rfl : k = 0 := Nat.eq_zero_of_add_eq_zero_left (Nat.lt_one_iff.1 hlt)
      rfl
    simp only [reach, List.getLast?_concat] at hk
    cases last with
    | fixed c =>
      obtain rfl : k = 0 := Nat.lt_one_iff.1 hk
      rfl
    | range start step count =>
      simp only at hk
      split at hk
      · next hstep =>
        subst hstep
        exact position_add_sliced hfit (lt_of_lt_rowLeft (AxisSlice.counts_concat ..) hlt hk)
      · obtain rfl : k = 0 := Nat.lt_one_iff.1 hk
        rfl
  | rolled shifts =>
    obtain ⟨rfl, hfit⟩ := fits_rolled.1 h
    rcases List.eq_nil_or_concat' shifts with rfl | ⟨front, s, rfl⟩
    · obtain rfl := List.forall₂_nil_left_iff.1 hfit
      obtain rfl : k = 0 := Nat.eq_zero_of_add_eq_zero_left (Nat.lt_one_iff.1 hlt)
      rfl
    obtain ⟨before, n, rfl, -, hs⟩ := forall₂_concat_inv hfit
    simp only [reach, List.getLast?_concat] at hk
    split at hk
    · next hle => exact position_add_rolled hfit (lt_of_lt_rowLeft rfl hlt hk) (.inl hle)
    · next hgt =>
      have hk : k < s - p % n := Nat.lt_of_lt_of_le hk (Nat.min_le_right ..)
      have hsn : s ≤ n := by
        rcases hs with hlt | ⟨rfl, rfl⟩ <;> omega
      exact position_add_rolled hfit (by omega) (.inr (by omega))
  | masked positions =>
    obtain ⟨m, rest, rfl, rfl, -, -⟩ := fits_masked.1 h
    rcases List.eq_nil_or_concat' rest with rfl | ⟨front, n, rfl⟩
    · have hk : k < stretch positions p left := hk
      have hlt : p + k < positions.size := Nat.lt_of_lt_of_eq hlt (Nat.mul_one _)
      rw [position_masked_one hlt, position_masked_one (by omega), getD_of_lt_stretch hk]
    · have hrank : (positions.size :: (front ++ [n])).length ≠ 1 := by simp
      simp only [reach, if_neg hrank] at hk
      exact position_add_masked (lt_of_lt_rowLeft List.cons_append.symm hlt hk)

/-- One step of a walk along the reach of a view moves through consecutive positions beneath. -/
theorem Fits.position_stride (h : v.Fits) {p k left : Nat} (hlt : p + k < v.size)
    (hk : k < stride v.reach p left) : v.position (p + k) = v.position p + k := by
  cases k with
  | zero => rfl
  | succ k =>
    have hreach : k + 1 < v.reach p left := by
      unfold stride at hk
      omega
    exact h.position_add hlt hreach

/-- One step of a walk along the reach of a view stays within the positions beneath. -/
theorem Fits.stride_le (h : v.Fits) {p left : Nat} (hleft : left ≠ 0) (hp : p + left ≤ v.size) :
    v.position p + stride v.reach p left ≤ sizeOf v.source := by
  have hle : stride v.reach p left ≤ left := Orthotope.stride_le hleft
  have hpos : 1 ≤ stride v.reach p left := one_le_stride ..
  have hlast : v.position (p + (stride v.reach p left - 1)) < sizeOf v.source :=
    h.position_lt (by omega)
  have hstride := h.position_stride (p := p) (k := stride v.reach p left - 1) (by omega)
    (Nat.sub_lt hpos Nat.one_pos)
  omega

/-! ## Splitting a request -/

theorem runs_zero (v : View) (p : Nat) : v.runs p 0 = [] := by
  rw [runs, walk_zero]
  rfl

theorem runs_of_ne_zero (v : View) (p : Nat) {left : Nat} (h : left ≠ 0) :
    v.runs p left = ⟨v.position p, p, stride v.reach p left⟩ ::
      v.runs (p + stride v.reach p left) (left - stride v.reach p left) := by
  rw [runs, walk_of_ne_zero h]
  rfl

/-- The runs of a request are together as long as the request. -/
theorem total_runs (v : View) (p left : Nat) : Span.total ((v.runs p left).map (·.span)) = left := by
  have hspans : (v.runs p left).map (·.span) = walk v.reach p left := by
    rw [runs, List.map_map]
    exact List.map_id _
  rw [hspans, total_walk]

/-- The runs of a request in range are in range beneath. -/
theorem Fits.le_of_mem_runs (h : v.Fits) {p left : Nat} {r : Run} (hr : r ∈ v.runs p left)
    (hle : p + left ≤ v.size) : r.inner + r.span.length ≤ sizeOf v.source := by
  induction left using Nat.strongRecOn generalizing p with
  | ind left ih =>
    by_cases hzero : left = 0
    · rw [hzero, runs_zero] at hr
      cases hr
    have hpos : 1 ≤ stride v.reach p left := one_le_stride ..
    have hstride : stride v.reach p left ≤ left := Orthotope.stride_le hzero
    rw [v.runs_of_ne_zero p hzero] at hr
    rcases List.mem_cons.1 hr with rfl | hr
    · exact h.stride_le hzero hle
    · exact ih _ (by omega) hr (by omega)

end View

end Orthotope
