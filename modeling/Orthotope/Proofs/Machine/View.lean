import Orthotope.Machine.View
import Orthotope.Proofs.Machine.Arithmetic
import Orthotope.Proofs.View.Contiguous

/-!
# Views that are computed as they are described

`View.positionIn`, `View.reachIn` and `View.nextRun` compute in a given arithmetic what `View.position`
and `View.reach` describe, and check each step: a place in a table, a difference, a remainder, the
progress of a loop. If the view fits and the request is in range, none of these checks ever fails, so
that overflow is all that can go wrong (`View.Fits.agree_positionIn`, `View.Fits.agree_nextRun`). It
cannot happen in a view of at most 2^63 positions over as many (`View.Small`).
-/

namespace Orthotope

open Arithmetic

variable {fits : Prop}

/-! ## Coordinates -/

theorem AxisSlice.agree_placeIn {axes : List AxisSlice} {coords : List Nat}
    (h : Within (counts axes) coords)
    (hfits : fits → ∃ shape, FitsAll axes shape ∧ ∀ n ∈ shape, n ≤ maxPosition) :
    Agree fits (fun m => placeIn m axes coords) (.ok (place axes coords)) := by
  induction axes generalizing coords with
  | nil => exact .const _
  | cons axis axes ih =>
    have hrest : fits → ∃ shape, FitsAll axes shape ∧ ∀ n ∈ shape, n ≤ maxPosition := by
      intro hf
      obtain ⟨_, hall, hle⟩ := hfits hf
      obtain ⟨n, shape, -, hshape, rfl⟩ := List.forall₂_cons_left_iff.1 hall
      exact ⟨shape, hshape, fun n hn => hle n (List.mem_cons_of_mem _ hn)⟩
    cases axis with
    | fixed c => exact (ih h hrest).map (c :: ·)
    | range start step count =>
      cases coords with
      | nil => exact h.elim
      | cons i coords =>
        have hsum : fits → start + i * step ≤ maxPosition := by
          intro hf
          obtain ⟨_, hall, hle⟩ := hfits hf
          obtain ⟨n, shape, haxis, -, rfl⟩ := List.forall₂_cons_left_iff.1 hall
          exact Nat.le_trans (Nat.le_of_lt (haxis.position_lt h.1)) (hle n List.mem_cons_self)
        exact (agree_mul fun hf => Nat.le_trans (Nat.le_add_left ..) (hsum hf)).andThen
          ((agree_add hsum).andThen ((ih h.2 hrest).map (_ :: ·)))

theorem agree_unrollIn {i s n : Nat} (h : s ≤ n) (hfits : fits → i < n ∧ n ≤ 2 ^ 63) :
    Agree fits (fun m => unrollIn m i s n) (.ok (unroll i s n)) := by
  have hsum : fits → i + n ≤ maxPosition := by
    intro hf
    have := hfits hf
    unfold maxPosition
    omega
  unfold unrollIn unroll
  by_cases hs : s ≤ i
  · simp only [if_pos hs]
    exact agree_sub hs
  · simp only [if_neg hs]
    exact (agree_add hsum).andThen (agree_sub (Nat.le_trans h (Nat.le_add_left ..)))

theorem ShiftFits.le {s n : Nat} (h : ShiftFits s n) : s ≤ n := by
  rcases h with hlt | ⟨rfl, rfl⟩
  · exact Nat.le_of_lt hlt
  · exact Nat.le_refl 0

theorem agree_unrollAxesIn {coords shifts shape : List Nat} (h : List.Forall₂ ShiftFits shifts shape)
    (hc : Within shape coords) (hfits : fits → ∀ n ∈ shape, n ≤ 2 ^ 63) :
    Agree fits (fun m => unrollAxesIn m coords shifts shape)
      (.ok (unrollAxes coords shifts shape)) := by
  induction h generalizing coords with
  | nil => cases coords <;> exact .const _
  | cons hs _ ih =>
    cases coords with
    | nil => exact .const _
    | cons i coords =>
      have hrest := ih hc.2 fun hf n hn => hfits hf n (List.mem_cons_of_mem _ hn)
      exact (agree_unrollIn hs.le fun hf => ⟨hc.1, hfits hf _ List.mem_cons_self⟩).andThen
        (hrest.map (_ :: ·))

/-! ## Runs -/

theorem agree_stretchIn {positions : Array Nat} {i left : Nat} (h : i + left ≤ positions.size)
    (hfits : fits → ∀ x ∈ positions.toList, x < maxPosition) :
    Agree fits (fun m => stretchIn m positions i left) (.ok (stretch positions i left)) := by
  have hsum : ∀ i < positions.size, fits → positions.getD i 0 + 1 ≤ maxPosition := by
    intro i hi hf
    refine hfits hf _ ?_
    rw [getD_eq_getElem_toList (by simpa using hi)]
    exact List.getElem_mem _
  fun_induction stretch positions i left with
  | case1 => exact .const _
  | case2 => exact .const _
  | case3 i left hnext ih =>
    simp only [stretchIn, entryOf_eq (show i + 1 < positions.size by omega),
      entryOf_eq (show i < positions.size by omega)]
    refine (agree_add (hsum i (by omega))).andThen ?_
    simp only [if_pos hnext]
    exact (ih (by omega)).map (· + 1)
  | case4 i left hnext =>
    simp only [stretchIn, entryOf_eq (show i + 1 < positions.size by omega),
      entryOf_eq (show i < positions.size by omega)]
    refine (agree_add (hsum i (by omega))).andThen ?_
    simp only [if_neg hnext]
    exact .const _

namespace View

/-- A view has at most 2^63 positions, and no more lie beneath. -/
def Small (v : View) : Prop := v.size ≤ 2 ^ 63 ∧ sizeOf v.source ≤ 2 ^ 63

instance (v : View) : Decidable v.Small := inferInstanceAs (Decidable (_ ∧ _))

variable {v : View}

theorem le_maxPosition {n : Nat} (h : n ≤ 2 ^ 63) : n ≤ maxPosition := Nat.le_trans h (by decide)

theorem Fits.agree_coordsIn (h : v.Fits) (hflat : v.transform.flat = false) {cs : List Nat}
    (hc : Within v.shape cs) : Agree v.Small (fun m => v.coordsIn m cs) (.ok (v.coords cs)) := by
  have hsource : 0 < sizeOf v.source := Nat.zero_lt_of_lt (offset_lt (h.within_coords hflat hc))
  have hsize : 0 < sizeOf v.shape := Nat.zero_lt_of_lt (offset_lt hc)
  obtain ⟨source, shape, transform⟩ := v
  cases transform with
  | transposed | flatRolled | reshaped => exact .const _
  | sliced axes =>
    obtain ⟨hfit, rfl⟩ := fits_sliced.1 h
    exact AxisSlice.agree_placeIn hc fun hsmall => ⟨source, hfit, fun n hn =>
      le_maxPosition (Nat.le_trans (le_sizeOf_of_mem hsource hn) hsmall.2)⟩
  | rolled shifts =>
    obtain ⟨rfl, hfit⟩ := fits_rolled.1 h
    exact agree_unrollAxesIn hfit hc fun hsmall n hn =>
      Nat.le_trans (le_sizeOf_of_mem hsize hn) hsmall.1
  | masked positions =>
    obtain ⟨n, rest, rfl, rfl, -, -⟩ := fits_masked.1 h
    cases cs with
    | nil => exact .const _
    | cons i cs =>
      simp only [coordsIn, entryOf_eq (show i < positions.size from hc.1)]
      exact .const _

/-- The position beneath is found in any arithmetic, unless it overflows. -/
theorem Fits.agree_positionIn (h : v.Fits) {p : Nat} (hp : p < v.size) :
    Agree v.Small (fun m => v.positionIn m v.size p) (.ok (v.position p)) := by
  have hpos : 0 < sizeOf v.shape := Nat.zero_lt_of_lt hp
  have hcoords : v.transform.flat = false →
      Agree v.Small (fun m => do
        let found ← unravelGuarded v.shape p
        offsetIn m v.source (← v.coordsIn m found.1)) (.ok (v.position p)) := by
    intro hflat
    have hc : Within v.shape (unravel v.shape p) := within_unravel hpos
    have hwithin := h.within_coords hflat hc
    rw [unravelGuarded_eq hpos, position_of_not_flat hflat]
    exact (h.agree_coordsIn hflat hc).andThen
      (agree_offsetIn hwithin.length_eq fun hsmall => ⟨hwithin, le_maxPosition hsmall.2⟩)
  obtain ⟨source, shape, transform⟩ := v
  cases transform with
  | flatRolled shift =>
    exact agree_unrollIn (Nat.le_of_lt (fits_flatRolled.1 h).2) fun hsmall => ⟨hp, hsmall.1⟩
  | reshaped => exact .const _
  | transposed | sliced | rolled | masked => exact hcoords rfl

/-- The last coordinate of a position. -/
theorem entry_unravel_concat (front : List Nat) (n p : Nat) :
    entry (unravel (front ++ [n]) p) front.length = .ok (p % n) := by
  have hlast := entry_concat (unravel front (p / n)) (p % n)
  rwa [length_unravel, ← unravel_concat] at hlast

theorem agree_rowLeftIn {p : Nat} (hp : p < v.size) (left : Nat) :
    Agree fits (fun m => v.rowLeftIn m (unravel v.shape p) left) (.ok (v.rowLeft p left)) := by
  unfold rowLeftIn rowLeft
  rw [size] at hp
  rcases List.eq_nil_or_concat' v.shape with hshape | ⟨front, n, hshape⟩
  · rw [hshape]
    exact .const _
  · rw [hshape] at hp ⊢
    have hn : 0 < n := by
      rw [sizeOf_concat] at hp
      exact Nat.pos_of_mul_pos_left (Nat.zero_lt_of_lt hp)
    have hlen : (front ++ [n]).length - 1 = front.length := by simp
    have hne : (front ++ [n]).length ≠ 0 := by simp
    simp only [if_neg hne, hlen, entry_concat, entry_unravel_concat, List.getLast?_concat]
    exact (agree_sub (Nat.le_of_lt (Nat.mod_lt p hn))).map (min left ·)

/-- The reach of a roll of each axis, in terms of the last axis. -/
theorem reach_rolled (before shifts : List Nat) (n s p left : Nat) :
    (⟨before ++ [n], before ++ [n], .rolled (shifts ++ [s])⟩ : View).reach p left =
      if s ≤ p % n then (⟨before ++ [n], before ++ [n], .rolled (shifts ++ [s])⟩ : View).rowLeft p left
      else min left (s - p % n) := by
  simp only [reach, List.getLast?_concat]

theorem agree_reachIn_rolled {before shifts : List Nat} {n s p left : Nat}
    (h : shifts.length = before.length) :
    let v : View := ⟨before ++ [n], before ++ [n], .rolled (shifts ++ [s])⟩
    p < v.size → Agree fits (fun m => v.reachIn m v.size p left) (.ok (v.reach p left)) := by
  intro v hp
  have hpos : 0 < sizeOf (before ++ [n]) := Nat.zero_lt_of_lt hp
  have hlen : (before ++ [n]).length - 1 = before.length := by simp
  have hne : (before ++ [n]).length ≠ 0 := by simp
  have hshift : entry (shifts ++ [s]) before.length = .ok s := h ▸ entry_concat shifts s
  have hrow : Agree fits (fun m => v.rowLeftIn m (unravel v.shape p) left) (.ok (v.rowLeft p left)) :=
    agree_rowLeftIn hp left
  rw [reach_rolled]
  simp only [v, reachIn, unravelGuarded_eq hpos]
  show Agree fits (fun m => if (before ++ [n]).length = 0 then _ else _) _
  simp only [if_neg hne, hlen, entry_unravel_concat, hshift]
  show Agree fits (fun m => if s ≤ p % n then v.rowLeftIn m _ left else _) _
  by_cases hs : s ≤ p % n
  · simp only [if_pos hs]
    exact hrow
  · simp only [if_neg hs]
    exact (agree_sub (Nat.le_of_not_le hs)).map (min left ·)

/-- The reach of a request in range is found in any arithmetic, unless it overflows. -/
theorem Fits.agree_reachIn (h : v.Fits) {p left : Nat} (hp : p < v.size) (hle : p + left ≤ v.size) :
    Agree v.Small (fun m => v.reachIn m v.size p left) (.ok (v.reach p left)) := by
  have hpos : 0 < sizeOf v.shape := Nat.zero_lt_of_lt hp
  have hrow : Agree v.Small (fun m => unravelGuarded v.shape p >>= fun found => v.rowLeftIn m found.1 left)
      (.ok (v.rowLeft p left)) := by
    rw [unravelGuarded_eq hpos]
    exact agree_rowLeftIn hp left
  have hposition := h.agree_positionIn hp
  have hlt := h.position_lt hp
  obtain ⟨source, shape, transform⟩ := v
  cases transform with
  | transposed | reshaped => exact .const _
  | flatRolled shift =>
    obtain ⟨rfl, -⟩ := fits_flatRolled.1 h
    exact hposition.andThen ((agree_sub (Nat.le_of_lt hlt)).map (min left ·))
  | sliced axes =>
    unfold reachIn reach
    dsimp only
    rcases axes.getLast? with _ | c | ⟨start, step, count⟩
    · exact .const _
    · exact .const _
    · by_cases hstep : step = 1
      · simp only [if_pos hstep]
        exact hrow
      · simp only [if_neg hstep]
        exact .const _
  | rolled shifts =>
    obtain ⟨rfl, hfit⟩ := fits_rolled.1 h
    rcases List.eq_nil_or_concat' shifts with rfl | ⟨front, s, rfl⟩
    · obtain rfl := List.forall₂_nil_left_iff.1 hfit
      exact .const _
    · obtain ⟨before, n, rfl, hfront, -⟩ := forall₂_concat_inv hfit
      exact agree_reachIn_rolled hfront.length_eq hp
  | masked positions =>
    obtain ⟨n, rest, rfl, rfl, -, hbelow⟩ := fits_masked.1 h
    have hsource : 0 < sizeOf (n :: rest) := Nat.zero_lt_of_lt hlt
    unfold reachIn reach
    dsimp only
    by_cases hrank : (positions.size :: rest).length = 1
    · obtain rfl : rest = [] := List.eq_nil_of_length_eq_zero (Nat.succ.inj hrank)
      refine agree_stretchIn (Nat.le_trans hle (Nat.le_of_eq (Nat.mul_one _))) fun hsmall x hx => ?_
      exact Nat.lt_of_lt_of_le (hbelow x hx)
        (le_maxPosition (Nat.le_trans (le_sizeOf_of_mem hsource List.mem_cons_self) hsmall.2))
    · simp only [if_neg hrank]
      exact hrow

theorem rowLeft_bounds {p left : Nat} (hp : p < v.size) (hleft : 0 < left) :
    1 ≤ v.rowLeft p left ∧ v.rowLeft p left ≤ left := by
  unfold rowLeft
  rw [size] at hp
  rcases List.eq_nil_or_concat' v.shape with hshape | ⟨front, n, hshape⟩
  · rw [hshape]
    exact ⟨hleft, Nat.le_refl left⟩
  · rw [hshape, sizeOf_concat] at hp
    have hn : 0 < n := Nat.pos_of_mul_pos_left (Nat.zero_lt_of_lt hp)
    have := Nat.mod_lt p hn
    rw [hshape, List.getLast?_concat]
    dsimp only
    omega

theorem stretch_bounds {positions : Array Nat} {i left : Nat} (hleft : 0 < left) :
    1 ≤ stretch positions i left ∧ stretch positions i left ≤ left := by
  fun_induction stretch positions i left with
  | case1 => cases hleft
  | case2 => exact ⟨Nat.le_refl 1, Nat.le_refl 1⟩
  | case3 i left hnext ih => have := ih (Nat.succ_pos left); omega
  | case4 i left hnext => omega

/-- A run advances, and not beyond the request. -/
theorem Fits.reach_bounds (h : v.Fits) {p left : Nat} (hp : p < v.size) (hleft : 0 < left) :
    1 ≤ v.reach p left ∧ v.reach p left ≤ left := by
  have hlt := h.position_lt hp
  have hrow := rowLeft_bounds hp hleft
  obtain ⟨source, shape, transform⟩ := v
  unfold reach
  cases transform with
  | transposed => exact ⟨Nat.le_refl 1, hleft⟩
  | reshaped => exact ⟨hleft, Nat.le_refl left⟩
  | flatRolled shift =>
    obtain ⟨rfl, -⟩ := fits_flatRolled.1 h
    have hleft' : 1 ≤ size ⟨shape, shape, .flatRolled shift⟩ - _ := Nat.sub_pos_of_lt hlt
    exact ⟨Nat.le_min.2 ⟨hleft, hleft'⟩, Nat.min_le_left ..⟩
  | sliced axes =>
    dsimp only
    rcases axes.getLast? with _ | c | ⟨start, step, count⟩
    · exact ⟨hleft, Nat.le_refl left⟩
    · exact ⟨Nat.le_refl 1, hleft⟩
    · dsimp only
      split
      · exact hrow
      · exact ⟨Nat.le_refl 1, hleft⟩
  | rolled shifts =>
    dsimp only
    split
    · split
      · exact hrow
      · omega
    · exact ⟨hleft, Nat.le_refl left⟩
  | masked positions =>
    dsimp only
    split
    · exact stretch_bounds hleft
    · exact hrow

/-- The next run of a request in range is found in any arithmetic, unless it overflows. No check fails,
which also means that the run advances and stays within the request. -/
theorem Fits.agree_nextRun (h : v.Fits) {p len done : Nat} (hle : p + len ≤ v.size) (hdone : done < len) :
    Agree v.Small (fun m => v.nextRun m v.size p len done)
      (.ok ⟨v.position (p + done), done, v.reach (p + done) (len - done)⟩) := by
  have hp : p + done < v.size := by omega
  obtain ⟨hpos, hreach⟩ := h.reach_bounds hp (Nat.sub_pos_of_lt hdone)
  have hadd : Agree v.Small (fun m => m.add p done) (.ok (p + done)) :=
    agree_add fun hsmall => le_maxPosition (Nat.le_trans (Nat.le_of_lt hp) hsmall.1)
  refine hadd.andThen ((h.agree_positionIn hp).andThen ((h.agree_reachIn hp (by omega)).andThen ?_))
  show Agree v.Small (fun _ => if v.reach (p + done) (len - done) = 0 then _ else _) _
  rw [if_neg (Nat.ne_of_gt hpos)]
  show Agree v.Small (fun _ => if len - done < v.reach (p + done) (len - done) then _ else _) _
  rw [if_neg (Nat.not_lt.2 hreach)]
  exact .const _

end View

end Orthotope
