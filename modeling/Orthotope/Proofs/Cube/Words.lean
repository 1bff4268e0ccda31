import Orthotope.Proofs.Cube.Slicing

/-!
# Slices by unsigned numbers

An accessor for one axis leaves the other axes whole (`Accessor.onAxis`), and such a slice does with the
axis what the accessor is resolved to (`Cube.Fits.slice_onAxis`).

Accessors are made of signed numbers. An unsigned number from `2 ^ 63` on becomes a negative one
(`Accessor.signedWord_of_ge`) and is counted from the end of the axis, if the axis is long enough or the
number close enough to `2 ^ 64`. `Layered.slice_by_word` says for all unsigned numbers when they
select what they say, and when they do not. A coordinate is compared with the length as it is.
-/

namespace Orthotope

/-! ## One axis of a shape -/

namespace AxisSlice

/-- The shape of a slice that takes an entry on one axis and the other axes whole. -/
def shapeOn (axis : Nat) (shape : List Nat) : AxisSlice → List Nat
  | fixed _ => shape.eraseIdx axis
  | range _ _ count => shape.set axis count

/-- The coordinates beneath a slice that takes an entry on one axis and the other axes whole. -/
def placeOn (axis : Nat) (coords : List Nat) : AxisSlice → List Nat
  | fixed p => coords.insertIdx axis p
  | range start step _ => coords.modify axis fun i => start + i * step

variable {axis n : Nat} {shape coords : List Nat}

theorem shapeOn_succ (cut : AxisSlice) :
    cut.shapeOn (axis + 1) (n :: shape) = n :: cut.shapeOn axis shape := by
  cases cut <;> rfl

theorem placeOn_succ (cut : AxisSlice) (i : Nat) :
    cut.placeOn (axis + 1) (i :: coords) = i :: cut.placeOn axis coords := by
  cases cut <;> rfl

theorem counts_set_whole (haxis : axis < shape.length) (cut : AxisSlice) :
    counts ((shape.map whole).set axis cut) = cut.shapeOn axis shape := by
  induction shape generalizing axis with
  | nil => cases haxis
  | cons n shape ih =>
    cases axis with
    | zero =>
      have hrest := counts_map_whole shape
      cases cut with
      | fixed p => exact hrest
      | range start step count => exact congrArg (count :: ·) hrest
    | succ axis =>
      rw [shapeOn_succ, ← ih (Nat.lt_of_succ_lt_succ haxis)]
      rfl

theorem place_set_whole (haxis : axis < shape.length) {cut : AxisSlice}
    (hc : Within (cut.shapeOn axis shape) coords) :
    place ((shape.map whole).set axis cut) coords = cut.placeOn axis coords := by
  induction shape generalizing axis coords with
  | nil => cases haxis
  | cons n shape ih =>
    cases axis with
    | zero =>
      cases cut with
      | fixed p => exact congrArg (p :: ·) (place_map_whole hc.length_eq)
      | range start step count =>
        cases coords with
        | nil => exact hc.elim
        | cons i coords => exact congrArg (_ :: ·) (place_map_whole hc.2.length_eq)
    | succ axis =>
      rw [shapeOn_succ] at hc
      cases coords with
      | nil => exact hc.elim
      | cons i coords =>
        rw [placeOn_succ, ← ih (Nat.lt_of_succ_lt_succ haxis) hc.2]
        exact place_whole_cons ..

end AxisSlice

/-- A coordinate for one axis may be put among those for the others if it is below the length of that
axis. -/
theorem within_insertIdx {axis len n : Nat} {shape coords : List Nat} (haxis : shape[axis]? = some len)
    (hc : Within (shape.eraseIdx axis) coords) :
    Within shape (coords.insertIdx axis n) ↔ n < len := by
  induction shape generalizing axis coords with
  | nil => cases haxis
  | cons m shape ih =>
    cases axis with
    | zero =>
      cases haxis
      exact and_iff_left hc
    | succ axis =>
      cases coords with
      | nil => exact hc.elim
      | cons i coords => exact (and_iff_right hc.1).trans (ih haxis hc.2)

namespace Accessor

/-- An accessor for one axis. The axes before it are kept whole, and so are those after it. -/
def onAxis (axis : Nat) (a : Accessor) : List Accessor := List.replicate axis full ++ [a]

variable {axis n : Nat} {shape : List Nat} {a : Accessor}

theorem resolve_full (n : Nat) : full.resolve n = .ok (.whole n) := by
  show Except.ok (AxisSlice.range 0 1 ((n - 0 + 1 - 1) / 1)) = _
  rw [Nat.div_one]
  rfl

theorem resolveAll_onAxis (haxis : shape[axis]? = some n) : resolveAll shape (a.onAxis axis) =
    (a.resolve n >>= fun cut => .ok ((shape.map .whole).set axis cut)) := by
  induction shape generalizing axis with
  | nil => cases haxis
  | cons m shape ih =>
    cases axis with
    | zero =>
      cases haxis
      show (a.resolve n >>= fun first => resolveAll shape [] >>= fun rest => .ok (first :: rest)) = _
      rw [resolveAll_nil]
      rfl
    | succ axis =>
      show (full.resolve m >>= fun first =>
        resolveAll shape (a.onAxis axis) >>= fun rest => .ok (first :: rest)) = _
      rw [resolve_full, ih haxis]
      cases a.resolve n <;> rfl

end Accessor

namespace Cube

variable {k : Kind} {c : Cube k} {axis n : Nat} {a : Accessor}

/-- A slice of one axis does what the accessor is resolved to. -/
theorem Fits.slice_onAxis (h : c.Fits) (serial : Nat) (haxis : c.shape[axis]? = some n) :
    (∀ cut, a.resolve n = .ok cut → ∃ d, c.slice serial (a.onAxis axis) = .ok d ∧
      Presents d c (cut.shapeOn axis c.shape) fun cs => cut.placeOn axis cs) ∧
    ∀ e, a.resolve n = .error e → c.slice serial (a.onAxis axis) = .error e := by
  have hlt : axis < c.shape.length := (List.getElem?_eq_some_iff.1 haxis).1
  have hrank : (a.onAxis axis).length ≤ c.rank := by
    rw [Accessor.onAxis, List.length_append, List.length_replicate, rank_eq]
    exact hlt
  have hresolve := Accessor.resolveAll_onAxis (a := a) haxis
  refine ⟨fun cut hcut => ?_, fun e he => ?_⟩
  · rw [hcut] at hresolve
    obtain ⟨d, hd, hpresents⟩ := presents_slice serial h hrank hresolve
    rw [AxisSlice.counts_set_whole hlt] at hpresents
    exact ⟨d, hd, hpresents.congr fun cs hc => AxisSlice.place_set_whole hlt hc⟩
  · rw [he] at hresolve
    exact slice_of_refused hrank hresolve

theorem Fits.exists_slice_onAxis_iff (h : c.Fits) (serial : Nat) (haxis : c.shape[axis]? = some n) :
    (∃ d, c.slice serial (a.onAxis axis) = .ok d) ↔ ∃ cut, a.resolve n = .ok cut := by
  obtain ⟨hok, herror⟩ := h.slice_onAxis serial (a := a) haxis
  cases hresolve : a.resolve n with
  | error e => simp [herror e hresolve]
  | ok cut =>
    obtain ⟨d, hd, -⟩ := hok cut hresolve
    exact iff_of_true ⟨d, hd⟩ ⟨cut, rfl⟩

end Cube

/-! ## Unsigned numbers -/

namespace Accessor

variable {n len s e : Nat} {cut : AxisSlice}

theorem signedWord_of_lt (h : n < 2 ^ 63) : signedWord n = n :=
  signedWord_of_signed ⟨by omega, by omega⟩

/-- An unsigned number that is no signed one becomes negative. -/
theorem signedWord_of_ge (h : 2 ^ 63 ≤ n) (hn : n ≤ maxPosition) : signedWord n = n - 2 ^ 64 := by
  have hword : signedWord (n - 2 ^ 64) = signedWord n := Int.sub_bmod_right n (2 ^ 64)
  unfold maxPosition at hn
  rw [← hword]
  exact signedWord_of_signed ⟨by omega, by omega⟩

theorem counted_signedWord (len : Nat) (hn : n ≤ maxPosition) :
    counted len (signedWord n) = if n < 2 ^ 63 then (n : Int) else n + len - 2 ^ 64 := by
  unfold maxPosition at hn
  split
  · next hlt =>
    rw [signedWord_of_lt hlt, counted, if_neg (by omega)]
  · next hge =>
    rw [signedWord_of_ge (Nat.not_lt.1 hge) hn, counted, if_pos (by omega)]
    omega

/-- An unsigned number of 63 bits selects its position. -/
theorem resolve_atWord_of_lt (h : n < 2 ^ 63) : (atWord n).resolve len =
    if n < len then .ok (.fixed n) else .error .sliceIndex := by
  have hcounted : counted len n = n := if_neg (Int.not_lt.2 (Int.natCast_nonneg n))
  have hon : -(len : Int) ≤ n ∧ (n : Int) < len ↔ n < len := by omega
  rw [atWord, signedWord_of_lt h, resolve_at, hcounted, Int.toNat_natCast]
  simp only [hon]

/-- Other unsigned numbers select a position from the end of the axis. -/
theorem resolve_atWord_of_ge (h : 2 ^ 63 ≤ n) (hn : n ≤ maxPosition) : (atWord n).resolve len =
    if 2 ^ 64 ≤ n + len then .ok (.fixed (n + len - 2 ^ 64)) else .error .sliceIndex := by
  have hcounted := counted_signedWord len hn
  rw [if_neg (Nat.not_lt.2 h), signedWord_of_ge h hn] at hcounted
  rw [atWord, signedWord_of_ge h hn, resolve_at, hcounted]
  unfold maxPosition at hn
  have hon : -(len : Int) ≤ n - 2 ^ 64 ∧ (n : Int) - 2 ^ 64 < len ↔ 2 ^ 64 ≤ n + len := by omega
  have hplace : ((n : Int) + len - 2 ^ 64).toNat = n + len - 2 ^ 64 := by omega
  simp only [hon, hplace]

/-- An unsigned number is refused off the axis and else selects its position, exactly if it has 63 bits
or does not reach the axis when it is counted from the end. -/
theorem atWord_selects_iff (hn : n ≤ maxPosition) (hlen : len ≤ maxPosition) :
    (((∃ cut, (atWord n).resolve len = .ok cut) ↔ n < len) ∧
        ∀ cut, (atWord n).resolve len = .ok cut → cut = .fixed n) ↔
      n < 2 ^ 63 ∨ n + len < 2 ^ 64 := by
  rcases Nat.lt_or_ge n (2 ^ 63) with h | h
  · refine iff_of_true ?_ (.inl h)
    rw [resolve_atWord_of_lt h]
    by_cases hon : n < len
    · rw [if_pos hon]
      exact ⟨iff_of_true ⟨_, rfl⟩ hon, fun cut hcut => (Except.ok.inj hcut).symm⟩
    · rw [if_neg hon]
      exact ⟨iff_of_false (by simp) hon, fun cut hcut => by cases hcut⟩
  unfold maxPosition at hlen
  rw [resolve_atWord_of_ge h hn]
  by_cases hnear : 2 ^ 64 ≤ n + len
  · -- the position selected is `n` less what the length lacks of `2 ^ 64`
    rw [if_pos hnear]
    refine iff_of_false ?_ (by omega)
    rintro ⟨-, hcut⟩
    have hsame := AxisSlice.fixed.inj (hcut _ rfl)
    omega
  · rw [if_neg hnear]
    exact iff_of_true ⟨iff_of_false (by simp) (by omega), fun cut hcut => by cases hcut⟩
      (.inr (by omega))

/-- An unsigned number stands for a position that is no greater, and for the same one if it has 63 bits. -/
theorem counted_signedWord_le (hn : n ≤ maxPosition) (hlen : len ≤ maxPosition) :
    counted len (signedWord n) ≤ n ∧ (n ≤ counted len (signedWord n) ↔ n < 2 ^ 63) := by
  rw [counted_signedWord len hn]
  unfold maxPosition at hlen
  split <;> omega

section
variable {start : Int} {stop : Option Int}

/-- What a range selects lies below its end, also if the end is any unsigned number. -/
theorem lt_of_resolve_word (he : e ≤ maxPosition) (hlen : len ≤ maxPosition)
    (h : (Accessor.range start (some (signedWord e)) 1).resolve len = .ok cut) {p : Nat}
    (hp : p ∈ cut.positions) : p < e := by
  have hlt := ((mem_positions_of_resolve h).1 hp).2.1
  rw [ending_some] at hlt
  have hle := (counted_signedWord_le he hlen).1
  omega

/-- What a range selects lies at its start or above, if the start is an unsigned number of 63 bits. If it
is another unsigned number, the first position selected lies below it. -/
theorem le_of_resolve_word_iff (hs : s ≤ maxPosition) (hlen : len ≤ maxPosition)
    (h : (Accessor.range (signedWord s) stop 1).resolve len = .ok cut) :
    (∀ p ∈ cut.positions, s ≤ p) ↔ s < 2 ^ 63 ∨ cut.positions = [] := by
  have hword := (counted_signedWord_le hs hlen).2
  have hfirst := (range_of_resolve h).2.1.counted_mem
  constructor
  · intro hle
    refine or_iff_not_imp_right.2 fun hne => ?_
    obtain ⟨p, hp⟩ := List.exists_mem_of_ne_nil _ hne
    obtain ⟨hlow, hhigh, -⟩ := (mem_positions_of_resolve h).1 hp
    have hle := hle _ (start_mem_of_resolve h (Int.lt_of_le_of_lt hlow hhigh))
    exact hword.1 (by omega)
  · rintro (hlt | hempty) p hp
    · have hlow := ((mem_positions_of_resolve h).1 hp).1
      have := hword.2 hlt
      omega
    · rw [hempty] at hp
      cases hp

end

/-- A range without an end selects something, if its start is no signed number. -/
theorem lt_of_since_eq_nil (hs : s ≤ maxPosition)
    (h : (since s).resolve len = .ok cut) (hempty : cut.positions = []) : s < 2 ^ 63 := by
  by_contra hge
  have hlt : counted len (signedWord s) < ending len none := by
    rw [counted_signedWord len hs, if_neg hge, ending_none]
    unfold maxPosition at hs
    omega
  have hmem := start_mem_of_resolve h hlt
  rw [hempty] at hmem
  cases hmem

end Accessor

/-- Slices of one axis by unsigned numbers, on a cube that is made from a leaf by any operations and
conversions. A slice does what its accessor is resolved to, and a coordinate is refused off the axis. A
number selects what it says exactly if it has 63 bits or does not reach the axis when it is counted from
the end. A range selects nothing from its end on. It selects nothing below its start either, exactly if
the start has 63 bits or nothing is selected. -/
theorem Layered.slice_by_word {k₀ k : Kind} {slot : Nat} {dims : List Dimension} {c : Cube k}
    (h : Layered (.leaf k₀ slot dims) c) (serial : Nat) {axis len : Nat}
    (haxis : c.shape[axis]? = some len) (hlen : len ≤ maxPosition) :
    (∀ a : Accessor,
      (∀ cut, a.resolve len = .ok cut → ∃ d, c.slice serial (a.onAxis axis) = .ok d ∧
        d.Presents c (cut.shapeOn axis c.shape) fun cs => cut.placeOn axis cs) ∧
      ∀ e, a.resolve len = .error e → c.slice serial (a.onAxis axis) = .error e) ∧
    (∀ n ≤ maxPosition,
      (∀ cs, Within (c.shape.eraseIdx axis) cs →
        ((∃ p, offset? c.shape (cs.insertIdx axis n) = .ok p) ↔ n < len)) ∧
      ((((∃ d, c.slice serial ((Accessor.atWord n).onAxis axis) = .ok d) ↔ n < len) ∧
          ∀ cut, (Accessor.atWord n).resolve len = .ok cut → cut = .fixed n) ↔
        n < 2 ^ 63 ∨ n + len < 2 ^ 64)) ∧
    (∀ s ≤ maxPosition, ∀ e ≤ maxPosition, ∀ cut, (Accessor.between s e).resolve len = .ok cut →
      ((∀ p ∈ cut.positions, s ≤ p ∧ p < e) ↔ s < 2 ^ 63 ∨ cut.positions = [])) ∧
    (∀ e ≤ maxPosition, ∀ cut, (Accessor.before e).resolve len = .ok cut →
      ∀ p ∈ cut.positions, p < e) ∧
    ∀ s ≤ maxPosition, ∀ cut, (Accessor.since s).resolve len = .ok cut →
      ((∀ p ∈ cut.positions, s ≤ p) ↔ s < 2 ^ 63) := by
  have hfits := h.fits_and_bottom.1
  refine ⟨fun a => hfits.slice_onAxis serial haxis, fun n hn => ⟨fun cs hc => ?_, ?_⟩,
    fun s hs e he cut hcut => ?_, fun e he cut hcut p hp => ?_, fun s hs cut hcut => ?_⟩
  · rw [← within_insertIdx haxis hc]
    simp only [offset?_eq_ok_iff, exists_and_left, exists_eq, and_true]
  · rw [hfits.exists_slice_onAxis_iff serial haxis]
    exact Accessor.atWord_selects_iff hn hlen
  · rw [← Accessor.le_of_resolve_word_iff hs hlen hcut]
    exact ⟨fun hin p hp => (hin p hp).1,
      fun hlow p hp => ⟨hlow p hp, Accessor.lt_of_resolve_word he hlen hcut hp⟩⟩
  · exact Accessor.lt_of_resolve_word he hlen hcut hp
  · rw [Accessor.le_of_resolve_word_iff hs hlen hcut]
    exact or_iff_left_of_imp fun hempty => Accessor.lt_of_since_eq_nil hs hcut hempty

/-- The last of three positions, which a slice and a coordinate take for the same. -/
theorem Layered.slice_by_word_last :
    let leaf : Cube .i32 := .leaf .i32 0 [.ofLength 3]
    (∃ d, leaf.slice 0 ((Accessor.atWord (2 : Nat)).onAxis 0) = .ok d) ∧
      ∃ p, offset? leaf.shape [2] = .ok p := by
  intro leaf
  have haxis : leaf.shape[0]? = some 3 := rfl
  obtain ⟨-, hword, -⟩ := Layered.slice_by_word (.root : Layered leaf leaf) 0 haxis (by decide)
  obtain ⟨hcoord, hselects⟩ := hword 2 (by decide)
  exact ⟨(hselects.2 (.inl (by decide))).1.2 (by decide), (hcoord [] trivial).2 (by decide)⟩

/-- The greatest unsigned number slices the last of three positions, and is off the axis as a
coordinate. -/
theorem greatest_word_slices_last :
    let leaf : Cube .i32 := .leaf .i32 0 [.ofLength 3]
    leaf.slice 0 [.atWord (2 ^ 64 - 1)] = .ok (.view 0 leaf [] (.sliced [.fixed 2])) ∧
      ∀ p, offset? leaf.shape [2 ^ 64 - 1] ≠ .ok p := by
  intro leaf
  refine ⟨rfl, fun p hp => ?_⟩
  cases hp

end Orthotope
