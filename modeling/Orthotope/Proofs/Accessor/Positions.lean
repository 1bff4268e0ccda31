import Orthotope.Index.Lemmas
import Orthotope.Proofs.View.Compose

/-!
# What accessors select

An entry of a slice selects some positions of its axis, in an order (`AxisSlice.positions`). Which ones
an accessor is meant to select can be said without resolving it: an index that is negative is counted
from the end of the axis (`Accessor.counted`), and a range selects the positions from its start on and
below its end that lie a multiple of the step after the start.

The lemmas `Accessor.resolve_at` and `Accessor.resolve_range` say in these terms how accessors are
resolved, and `Accessor.resolve_selects` says what they select. A range that includes its end does select
that end, except where the number after it is no signed number of 64 bits.
-/

namespace Orthotope

namespace Accessor

/-! ## Numbers -/

/-- Whether a number is a signed one of 64 bits. -/
def Signed (index : Int) : Prop := -2 ^ 63 ≤ index ∧ index < 2 ^ 63

instance (index : Int) : Decidable (Signed index) := inferInstanceAs (Decidable (_ ∧ _))

theorem signedWord_of_signed {index : Int} (h : Signed index) : signedWord index = index := by
  have hword : ((2 ^ 64 : Nat) : Int) = 2 ^ 64 := rfl
  obtain ⟨hlow, hhigh⟩ := h
  refine Int.bmod_eq_of_le ?_ ?_ <;> rw [hword] <;> omega

/-- The position that an index stands for on an axis of the given length, counted from the end if the
index is negative. -/
def counted (length : Nat) (index : Int) : Int := if index < 0 then index + length else index

/-- Where a range ends. If no end is given that is the end of the axis. -/
def ending (length : Nat) (stop : Option Int) : Int := stop.elim length (counted length)

@[simp] theorem ending_none (n : Nat) : ending n none = n := rfl

@[simp] theorem ending_some (n : Nat) (e : Int) : ending n (some e) = counted n e := rfl

/-- Whether an index may be an end of a range on an axis of the given length. -/
def InBounds (length : Nat) (index : Int) : Prop := -(length : Int) ≤ index ∧ index ≤ length

instance (length : Nat) (index : Int) : Decidable (InBounds length index) :=
  inferInstanceAs (Decidable (_ ∧ _))

section
variable {n : Nat} {start index : Int} {stop : Option Int}

theorem InBounds.counted_mem (h : InBounds n index) : 0 ≤ counted n index ∧ counted n index ≤ n := by
  obtain ⟨hlow, hhigh⟩ := h
  unfold counted
  split <;> omega

theorem ending_mem (h : ∀ e ∈ stop, InBounds n e) : 0 ≤ ending n stop ∧ ending n stop ≤ n := by
  cases stop with
  | none => exact ⟨Int.natCast_nonneg n, Int.le_refl n⟩
  | some e => exact (h e rfl).counted_mem

theorem position?_eq (n : Nat) (index : Int) :
    position? n index = if -(n : Int) ≤ index then some (counted n index).toNat else none := by
  unfold position? counted
  by_cases hneg : index < 0
  · rw [if_neg (Int.not_le.2 hneg), if_pos hneg]
    have hback : index.natAbs ≤ n ↔ -(n : Int) ≤ index := by omega
    have hplace : n - index.natAbs = (index + n).toNat := by omega
    simp only [hback, hplace]
  · rw [if_pos (Int.not_lt.1 hneg), if_neg hneg, if_pos (by omega)]

theorem bound?_eq (n : Nat) (index : Int) : bound? n index =
    if InBounds n index then .ok (counted n index).toNat else .error .sliceRange := by
  rw [bound?, position?_eq]
  by_cases hlow : -(n : Int) ≤ index
  · rw [if_pos hlow]
    have hhigh : (counted n index).toNat ≤ n ↔ InBounds n index := by
      unfold counted InBounds
      split <;> omega
    simp only [hhigh]
  · rw [if_neg hlow, if_neg fun h => hlow h.1]

/-! ## Single accessors -/

/-- An index is resolved if it lies on the axis, counted from either end. -/
theorem resolve_at (n : Nat) (index : Int) : (Accessor.at index).resolve n =
    if -(n : Int) ≤ index ∧ index < n then .ok (.fixed (counted n index).toNat)
    else .error .sliceIndex := by
  rw [resolve, position?_eq]
  by_cases hlow : -(n : Int) ≤ index
  · rw [if_pos hlow]
    have hhigh : (counted n index).toNat < n ↔ -(n : Int) ≤ index ∧ index < n := by
      unfold counted
      split <;> omega
    simp only [hhigh]
  · rw [if_neg hlow, if_neg fun h => hlow h.1]

/-- A range is resolved if its step is positive and its ends are in bounds. The step is looked at
first. -/
theorem resolve_range (n : Nat) (start : Int) (stop : Option Int) (step : Int) :
    (Accessor.range start stop step).resolve n =
      if step ≤ 0 then .error .sliceStep
      else if InBounds n start ∧ ∀ e ∈ stop, InBounds n e then
        .ok (.range (counted n start).toNat step.toNat
          (count (counted n start).toNat (ending n stop).toNat step.toNat))
      else .error .sliceRange := by
  rw [resolve]
  by_cases hstep : step ≤ 0
  · rw [if_pos hstep, if_pos hstep]
  rw [if_neg hstep, if_neg hstep, bound?_eq]
  by_cases hstart : InBounds n start
  · rw [if_pos hstart]
    cases stop with
    | none =>
      have hbounds : InBounds n start ∧ ∀ e ∈ (none : Option Int), InBounds n e :=
        ⟨hstart, fun e he => by cases he⟩
      rw [if_pos hbounds]
      rfl
    | some e =>
      have hbounds : (InBounds n start ∧ ∀ e' ∈ some e, InBounds n e') ↔ InBounds n e := by
        simp [hstart]
      show (bound? n e >>= _) = _
      rw [bound?_eq]
      by_cases hstop : InBounds n e
      · rw [if_pos hstop, if_pos (hbounds.2 hstop)]
        rfl
      · rw [if_neg hstop, if_neg fun h => hstop (hbounds.1 h)]
        rfl
  · rw [if_neg hstart, if_neg fun h => hstart h.1]
    rfl

/-- A range whose ends are in bounds is resolved to its ends, counted from the start of the axis. -/
theorem resolve_range_of_inBounds {step : Int} (hstep : 0 < step) (hstart : InBounds n start)
    (hstop : ∀ e ∈ stop, InBounds n e) : (Accessor.range start stop step).resolve n =
      .ok (.range (counted n start).toNat step.toNat
        (count (counted n start).toNat (ending n stop).toNat step.toNat)) := by
  rw [resolve_range, if_neg (Int.not_le.2 hstep), if_pos ⟨hstart, hstop⟩]

/-- A range that is resolved has a step forward and ends in bounds. -/
theorem range_of_resolve {step : Int} {cut : AxisSlice}
    (h : (Accessor.range start stop step).resolve n = .ok cut) :
    0 < step ∧ InBounds n start ∧ (∀ e ∈ stop, InBounds n e) ∧
      cut = .range (counted n start).toNat step.toNat
        (count (counted n start).toNat (ending n stop).toNat step.toNat) := by
  rw [resolve_range] at h
  split at h
  · cases h
  · next hstep =>
    split at h
    · next hbounds => exact ⟨Int.not_le.1 hstep, hbounds.1, hbounds.2, (Except.ok.inj h).symm⟩
    · cases h

/-! ## Selected positions -/

/-- A range counts the positions that lie below its end. -/
theorem lt_count_iff {start stop step i : Nat} (hstep : 0 < step) :
    i < count start stop step ↔ start + i * step < stop := by
  rw [count, ← Nat.succ_le_iff, Nat.le_div_iff_mul_le hstep, Nat.succ_mul]
  omega

theorem mem_positions_count {start stop step p : Nat} (hstep : 0 < step) :
    p ∈ (AxisSlice.range start step (count start stop step)).positions ↔
      start ≤ p ∧ p < stop ∧ step ∣ p - start := by
  rw [AxisSlice.mem_positions_range]
  constructor
  · rintro ⟨i, hi, rfl⟩
    refine ⟨Nat.le_add_right .., (lt_count_iff hstep).1 hi, ?_⟩
    rw [Nat.add_sub_cancel_left]
    exact Nat.dvd_mul_left step i
  · rintro ⟨hstart, hstop, i, hi⟩
    have hp : start + i * step = p := by
      rw [Nat.mul_comm, ← hi]
      omega
    exact ⟨i, (lt_count_iff hstep).2 (hp ▸ hstop), hp⟩

/-- A range between two numbers in the axis selects, in ascending order, the positions from the first on
and below the second that lie a multiple of the step after the first. -/
theorem positions_between {first last step : Int} (hstep : 0 < step) (hfirst : 0 ≤ first)
    (hlast : 0 ≤ last ∧ last ≤ n) :
    (AxisSlice.range first.toNat step.toNat (count first.toNat last.toNat step.toNat)).positions =
      (List.range n).filter fun p : Nat => first ≤ p ∧ p < last ∧ step ∣ p - first := by
  have hpos : 0 < step.toNat := by omega
  refine Index.eq_of_pairwise_lt (AxisSlice.pairwise_positions hpos)
    (List.pairwise_lt_range.filter _) fun p => ?_
  rw [mem_positions_count hpos, List.mem_filter, List.mem_range, decide_eq_true_eq]
  have hdvd : first ≤ p → (step.toNat ∣ p - first.toNat ↔ step ∣ p - first) := fun hle => by
    rw [← Int.natCast_dvd_natCast, Int.toNat_of_nonneg (Int.le_of_lt hstep)]
    rw [show ((p - first.toNat : Nat) : Int) = p - first by omega]
  constructor
  · rintro ⟨hle, hlt, hmul⟩
    exact ⟨by omega, by omega, by omega, (hdvd (by omega)).1 hmul⟩
  · rintro ⟨-, hle, hlt, hmul⟩
    exact ⟨by omega, by omega, (hdvd hle).2 hmul⟩

/-- The positions that a range selects once it is resolved. -/
theorem mem_positions_of_resolve {step : Int} {cut : AxisSlice} {p : Nat}
    (h : (Accessor.range start stop step).resolve n = .ok cut) :
    p ∈ cut.positions ↔ counted n start ≤ p ∧ p < ending n stop ∧ step ∣ p - counted n start := by
  obtain ⟨hstep, hstart, hstop, rfl⟩ := range_of_resolve h
  have hend := ending_mem hstop
  rw [positions_between hstep hstart.counted_mem.1 hend, List.mem_filter, List.mem_range,
    decide_eq_true_eq]
  exact ⟨fun hp => hp.2, fun hp => ⟨by omega, hp⟩⟩

/-- The position that a range starts from is selected unless the range is empty. -/
theorem start_mem_of_resolve {step : Int} {cut : AxisSlice}
    (h : (Accessor.range start stop step).resolve n = .ok cut)
    (hlt : counted n start < ending n stop) : (counted n start).toNat ∈ cut.positions := by
  have hstart := Int.toNat_of_nonneg (range_of_resolve h).2.1.counted_mem.1
  rw [mem_positions_of_resolve h, hstart, Int.sub_self]
  exact ⟨Int.le_refl _, hlt, Int.dvd_zero _⟩

/-! ## Ranges that include their end -/

/-- The number after a signed one is a signed one, save after the greatest. -/
theorem succ_eq {m : Arithmetic} {b : Int} (hb : Signed b) (h : b ≠ 2 ^ 63 - 1 ∨ m = .unbounded) :
    m.succ b = .ok (b + 1) := by
  obtain ⟨hb₀, hb₁⟩ := id hb
  cases m with
  | unbounded => rfl
  | checked =>
    have hne : b ≠ 2 ^ 63 - 1 := h.resolve_right fun h => by cases h
    exact if_pos (by omega)
  | wrapping =>
    have hne : b ≠ 2 ^ 63 - 1 := h.resolve_right fun h => by cases h
    exact congrArg Except.ok (signedWord_of_signed ⟨by omega, by omega⟩)

theorem through_eq (m : Arithmetic) {a b : Int} (ha : Signed a) (hb : Signed b) : through m a b =
    if b = -1 then .ok (.range a none 1)
    else (m.succ b).bind fun stop => .ok (.range a (some stop) 1) := by
  rw [through, signedWord_of_signed ha, signedWord_of_signed hb]
  split <;> rfl

/-- A range that includes its end ends after it, unless the number after it is not one. -/
theorem through_ends (m : Arithmetic) {a b : Int} (ha : Signed a) (hb : Signed b)
    (hlow : -(n : Int) ≤ b) (hhigh : b < n) (h : b ≠ 2 ^ 63 - 1 ∨ m = .unbounded) :
    ∃ stop : Option Int, through m a b = .ok (.range a stop 1) ∧ (∀ e ∈ stop, InBounds n e) ∧
      ending n stop = counted n b + 1 := by
  rw [through_eq m ha hb]
  by_cases hlast : b = -1
  · refine ⟨none, if_pos hlast, fun e he => (by cases he), ?_⟩
    rw [ending_none, counted, if_pos (by omega)]
    omega
  · refine ⟨some (b + 1), ?_, fun e he => ?_, ?_⟩
    · rw [if_neg hlast, succ_eq hb h]
      rfl
    · obtain rfl := Option.some.inj he
      exact ⟨by omega, by omega⟩
    · rw [ending_some]
      unfold counted
      split <;> split <;> omega

/-- Where results wrap around, a range up to the greatest signed number ends at the least one, which is
counted from the end of the axis. -/
theorem through_greatest {a : Int} (ha : Signed a) :
    through .wrapping a (2 ^ 63 - 1) = .ok (.range a (some (-2 ^ 63)) 1) := by
  rw [through_eq .wrapping ha (by decide), if_neg (by decide)]
  rfl

/-- A range that ends after the number that `b` stands for selects the positions up to it. -/
theorem positions_up_to {a b : Int} (ha : InBounds n a) (hstop : ∀ e ∈ stop, InBounds n e)
    (hend : ending n stop = counted n b + 1) : ∃ first count,
    (Accessor.range a stop 1).resolve n = .ok (.range first 1 count) ∧
      (AxisSlice.range first 1 count).positions =
        (List.range n).filter fun p : Nat => counted n a ≤ p ∧ p ≤ counted n b := by
  have hselect := positions_between Int.one_pos ha.counted_mem.1 (ending_mem hstop)
  refine ⟨_, _, resolve_range_of_inBounds Int.one_pos ha hstop, hselect.trans ?_⟩
  refine List.filter_congr fun p _ => ?_
  have hone : (1 : Int) ∣ p - counted n a := Int.one_dvd _
  have hle : (p : Int) < counted n b + 1 ↔ (p : Int) ≤ counted n b := Int.lt_add_one_iff
  simp only [hend, hone, and_true, hle]

/-- A range that ends at the least signed number selects the positions up to the greatest one only if there
are none. -/
theorem positions_wrapped_iff {a : Int} (hn : n ≤ maxPosition) (ha : InBounds n a)
    (hhigh : (2 ^ 63 - 1 : Int) < n) : ∃ first count,
    (Accessor.range a (some (-2 ^ 63)) 1).resolve n = .ok (.range first 1 count) ∧
      ((AxisSlice.range first 1 count).positions =
          ((List.range n).filter fun p : Nat => counted n a ≤ p ∧ p ≤ counted n (2 ^ 63 - 1)) ↔
        counted n (2 ^ 63 - 1) < counted n a) := by
  have hn : (n : Int) < 2 ^ 64 := by
    unfold maxPosition at hn
    omega
  have hstop : ∀ e ∈ some (-2 ^ 63 : Int), InBounds n e := by
    intro e he
    obtain rfl := Option.some.inj he
    exact ⟨by omega, by omega⟩
  have hend : ending n (some (-2 ^ 63)) = n - 2 ^ 63 := by
    rw [ending_some, counted, if_pos (by decide)]
    omega
  have hgreatest : counted n (2 ^ 63 - 1) = 2 ^ 63 - 1 := if_neg (by decide)
  have hselect := positions_between Int.one_pos ha.counted_mem.1 (ending_mem hstop)
  refine ⟨_, _, resolve_range_of_inBounds Int.one_pos ha hstop, ?_⟩
  rw [show (1 : Int).toNat = 1 from rfl] at hselect ⊢
  rw [hselect, hend, hgreatest]
  constructor
  · intro heq
    -- the end itself is selected only if it is below the position where the range ends
    by_contra hcon
    have hmem : 2 ^ 63 - 1 ∈ (List.range n).filter fun p : Nat =>
        counted n a ≤ p ∧ (p : Int) ≤ 2 ^ 63 - 1 := by
      rw [List.mem_filter, List.mem_range, decide_eq_true_eq]
      omega
    rw [← heq, List.mem_filter, decide_eq_true_eq] at hmem
    omega
  · intro hempty
    refine List.filter_congr fun p _ => decide_eq_decide.2 ?_
    omega

end

/-- What an accessor selects on an axis of `n` positions. An index selects the position that it counts
from either end, and is refused off the axis. A range is refused for a step that is not positive, else
for an end out of bounds, and else selects the positions from its start on and below its end that lie a
multiple of the step after the start. A range between signed numbers that includes its end selects all
positions up to that end, in any arithmetic, if the end is not the greatest signed number or numbers have
no bound. If it is, the number after it is a misuse where that is checked, and where it wraps around all
positions are selected only if there are none. -/
theorem resolve_selects (n : Nat) (hn : n ≤ maxPosition) :
    (∀ index : Int, (Accessor.at index).resolve n =
      if -(n : Int) ≤ index ∧ index < n then .ok (.fixed (counted n index).toNat)
      else .error .sliceIndex) ∧
    (∀ (start : Int) (stop : Option Int) (step : Int),
      ((Accessor.range start stop step).resolve n = .error .sliceStep ↔ step ≤ 0) ∧
      ((Accessor.range start stop step).resolve n = .error .sliceRange ↔
        0 < step ∧ ¬ (InBounds n start ∧ ∀ e ∈ stop, InBounds n e)) ∧
      (0 < step → InBounds n start → (∀ e ∈ stop, InBounds n e) → ∃ first count,
        (Accessor.range start stop step).resolve n = .ok (.range first step.toNat count) ∧
        (AxisSlice.range first step.toNat count).positions = (List.range n).filter fun p : Nat =>
          counted n start ≤ p ∧ p < ending n stop ∧ step ∣ p - counted n start)) ∧
    (∀ a b : Int, Signed a → Signed b → InBounds n a → -(n : Int) ≤ b → b < n →
      (∀ m : Arithmetic, b ≠ 2 ^ 63 - 1 ∨ m = .unbounded → ∃ range first count,
        through m a b = .ok range ∧ range.resolve n = .ok (.range first 1 count) ∧
        (AxisSlice.range first 1 count).positions =
          (List.range n).filter fun p : Nat => counted n a ≤ p ∧ p ≤ counted n b) ∧
      (b = 2 ^ 63 - 1 → through .checked a b = .error (.misuse .overflow) ∧ ∃ range first count,
        through .wrapping a b = .ok range ∧ range.resolve n = .ok (.range first 1 count) ∧
        ((AxisSlice.range first 1 count).positions =
            ((List.range n).filter fun p : Nat => counted n a ≤ p ∧ p ≤ counted n b) ↔
          counted n b < counted n a))) := by
  refine ⟨resolve_at n, fun start stop step => ?_, fun a b ha hb hstart hlow hhigh =>
    ⟨fun m h => ?_, ?_⟩⟩
  · rw [resolve_range]
    rcases Int.lt_or_le 0 step with hstep | hstep
    · have hnot := Int.not_le.2 hstep
      rw [if_neg hnot]
      by_cases hbounds : InBounds n start ∧ ∀ e ∈ stop, InBounds n e
      · rw [if_pos hbounds]
        refine ⟨iff_of_false (by simp) hnot, iff_of_false (by simp) fun h => h.2 hbounds,
          fun _ _ _ => ⟨_, _, rfl, ?_⟩⟩
        exact positions_between hstep hbounds.1.counted_mem.1 (ending_mem hbounds.2)
      · rw [if_neg hbounds]
        exact ⟨iff_of_false (by simp) hnot, iff_of_true rfl ⟨hstep, hbounds⟩,
          fun _ hstart hstop => absurd ⟨hstart, hstop⟩ hbounds⟩
    · have hnot := Int.not_lt.2 hstep
      rw [if_pos hstep]
      exact ⟨iff_of_true rfl hstep, iff_of_false (by simp) fun h => hnot h.1,
        fun hpos => absurd hpos hnot⟩
  · obtain ⟨stop, hthrough, hstop, hend⟩ := through_ends m ha hb hlow hhigh h
    obtain ⟨first, count, hselects⟩ := positions_up_to hstart hstop hend
    exact ⟨_, first, count, hthrough, hselects⟩
  · rintro rfl
    refine ⟨?_, .range a (some (-2 ^ 63)) 1, ?_⟩
    · rw [through_eq .checked ha hb, if_neg (by decide)]
      rfl
    · obtain ⟨first, count, hselects⟩ := positions_wrapped_iff hn hstart hhigh
      exact ⟨first, count, through_greatest ha, hselects⟩

/-- The last three of five positions, up to and including the last one. -/
theorem resolve_selects_last_three : ∃ range first count,
    through .checked (-3) (-1) = .ok range ∧ range.resolve 5 = .ok (.range first 1 count) ∧
      (AxisSlice.range first 1 count).positions = [2, 3, 4] := by
  have hstart : Signed (-3) := by decide
  have hstop : Signed (-1) := by decide
  obtain ⟨range, first, count, hthrough, hresolve, hselects⟩ :=
    ((resolve_selects 5 (by decide)).2.2 (-3) (-1) hstart hstop (by decide) (by decide)
      (by decide)).1 .checked (.inl (by decide))
  exact ⟨range, first, count, hthrough, hresolve, hselects.trans rfl⟩

/-- On an axis of `2 ^ 63` positions, the range from the second one up to the last one by its number is a
misuse where the number after the last one is checked, and selects nothing where it wraps around. -/
theorem through_greatest_selects_nothing :
    through .checked 1 (2 ^ 63 - 1) = .error (.misuse .overflow) ∧
      (∃ range, through .wrapping 1 (2 ^ 63 - 1) = .ok range ∧
        range.resolve (2 ^ 63) = .ok (.range 1 1 0)) ∧
      (AxisSlice.range 1 1 0).positions = [] ∧
      1 ∈ (List.range (2 ^ 63)).filter fun p : Nat =>
        counted (2 ^ 63) 1 ≤ p ∧ p ≤ counted (2 ^ 63) (2 ^ 63 - 1) := by
  refine ⟨rfl, ⟨_, rfl, rfl⟩, rfl, List.mem_filter.2 ⟨List.mem_range.2 ?_, ?_⟩⟩ <;> decide

end Accessor

end Orthotope
