import Orthotope.BitSet

/-!
# Laws of bit sets

`BitSet.Canonical` says that a set has as many words as needed and no bit beyond its size. Every way to
make a set keeps it, and what a set marks is stated for each of them (`BitSet.mem_empty`,
`BitSet.mem_full`, `BitSet.Canonical.mem_mark`).

The bits of a word are found by clearing the lowest one again and again (`BitSet.setBits_eq`). So the listed
positions are those marked (`BitSet.mem_positions`), in ascending order (`BitSet.pairwise_positions`), and
counting counts them (`BitSet.count_eq_length_positions`).
-/

namespace Orthotope.BitSet

/-! ## What a set marks -/

/-- The bit of a position in the words of a set, also beyond its size. -/
def bit (s : BitSet) (p : Nat) : Bool := (s.words.getD (p / 64) 0).getLsbD (p % 64)

/-- There are as many words as needed, and no bit is set beyond the size. -/
structure Canonical (s : BitSet) : Prop where
  size_words : s.words.size = wordCount s.size
  bit_beyond : ∀ p, s.size ≤ p → s.bit p = false

theorem mem_eq (s : BitSet) (p : Nat) : s.mem p = (decide (p < s.size) && s.bit p) := rfl

theorem Canonical.mem_eq_bit {s : BitSet} (h : s.Canonical) (p : Nat) : s.mem p = s.bit p := by
  rw [mem_eq]
  by_cases hp : p < s.size
  · simp [hp]
  · simp [hp, h.bit_beyond p (Nat.le_of_not_lt hp)]

@[simp]
theorem size_empty (n : Nat) : (empty n).size = n := rfl

@[simp]
theorem size_full (n : Nat) : (full n).size = n := by
  unfold full clearTail
  split <;> rfl

@[simp]
theorem size_mark (s : BitSet) (p : Nat) (b : Bool) : (s.mark p b).size = s.size := by
  unfold mark; split <;> rfl

theorem bit_empty (n p : Nat) : (empty n).bit p = false := by
  unfold bit empty
  rw [Array.getD_eq_getD_getElem?, Array.getElem?_replicate]
  split <;> simp

theorem canonical_empty (n : Nat) : (empty n).Canonical :=
  ⟨Array.size_replicate, fun p _ => bit_empty n p⟩

theorem mem_empty (n p : Nat) : (empty n).mem p = false := by
  rw [mem_eq, bit_empty, Bool.and_false]

theorem getLsbD_tail (n i : Nat) : (BitVec.twoPow 64 (n % 64) - 1).getLsbD i = decide (i < n % 64) := by
  have hlt : 2 ^ (n % 64) < 2 ^ 64 := Nat.pow_lt_pow_right (by decide) (Nat.mod_lt n (by decide))
  have hpow : (BitVec.twoPow 64 (n % 64)).toNat = 2 ^ (n % 64) := by
    rw [BitVec.toNat_twoPow, Nat.mod_eq_of_lt hlt]
  have hone : (1 : BitVec 64) ≤ BitVec.twoPow 64 (n % 64) :=
    BitVec.le_def.2 (hpow ▸ Nat.two_pow_pos (n % 64))
  rw [BitVec.getLsbD, BitVec.toNat_sub_of_le hone, hpow]
  exact Nat.testBit_two_pow_sub_one ..

/-- The words of which all bits are set. -/
theorem getElem?_ones (n w : Nat) : ((empty n).words.map fun _ => BitVec.allOnes 64)[w]? =
    if w < wordCount n then some (BitVec.allOnes 64) else none := by
  rw [empty, Array.getElem?_map, Array.getElem?_replicate]
  split <;> rfl

theorem bit_full (n p : Nat) : (full n).bit p = decide (p < n) := by
  have hmod := Nat.mod_lt p (show 0 < 64 by decide)
  unfold full clearTail bit
  dsimp only
  by_cases htail : n % 64 = 0
  · rw [if_pos htail, Array.getD_eq_getD_getElem?, getElem?_ones]
    by_cases hp : p < n
    · have hword : p / 64 < wordCount n := by unfold wordCount; omega
      rw [if_pos hword, Option.getD_some, BitVec.getLsbD_allOnes, decide_eq_true hmod, decide_eq_true hp]
    · have hword : ¬ p / 64 < wordCount n := by unfold wordCount; omega
      rw [if_neg hword, Option.getD_none, decide_eq_false hp]
      exact BitVec.getLsbD_zero
  · have hlast : ((empty n).words.map fun _ => BitVec.allOnes 64).size - 1 = n / 64 := by
      rw [Array.size_map, empty, Array.size_replicate, wordCount]
      omega
    rw [if_neg htail, hlast, Array.getD_eq_getD_getElem?, Array.getElem?_modify, getElem?_ones]
    rcases Nat.lt_trichotomy (p / 64) (n / 64) with hlt | heq | hgt
    · have hword : p / 64 < wordCount n := by unfold wordCount; omega
      rw [if_neg (Nat.ne_of_gt hlt), if_pos hword, Option.getD_some, BitVec.getLsbD_allOnes,
        decide_eq_true hmod, decide_eq_true (by omega)]
    · have hword : p / 64 < wordCount n := by unfold wordCount; omega
      rw [if_pos heq.symm, if_pos hword, Option.map_some, Option.getD_some, BitVec.getLsbD_and,
        BitVec.getLsbD_allOnes, decide_eq_true hmod, Bool.true_and, getLsbD_tail]
      exact decide_eq_decide.2 (by omega)
    · have hword : ¬ p / 64 < wordCount n := by unfold wordCount; omega
      rw [if_neg (Nat.ne_of_lt hgt), if_neg hword, Option.getD_none, decide_eq_false (by omega)]
      exact BitVec.getLsbD_zero

theorem size_words_full (n : Nat) : (full n).words.size = wordCount n := by
  unfold full clearTail
  split
  · rw [Array.size_map, empty, Array.size_replicate]
  · rw [Array.size_modify, Array.size_map, empty, Array.size_replicate]

theorem canonical_full (n : Nat) : (full n).Canonical :=
  ⟨by rw [size_words_full, size_full], fun p h => by
    rw [bit_full]
    exact decide_eq_false (Nat.not_lt.2 (size_full n ▸ h))⟩

theorem mem_full (n p : Nat) : (full n).mem p = decide (p < n) := by
  rw [mem_eq, bit_full, size_full, Bool.and_self]

theorem Canonical.bit_mark {s : BitSet} (h : s.Canonical) {p : Nat} (hp : p < s.size) (b : Bool)
    (q : Nat) : (s.mark p b).bit q = if q = p then b else s.bit q := by
  have hw : p / 64 < s.words.size := by
    rw [h.size_words, wordCount]; omega
  unfold bit mark
  rw [if_pos hp]
  simp only [Array.getD_eq_getD_getElem?, Array.getElem?_modify]
  by_cases hword : p / 64 = q / 64
  · have hq : s.words[q / 64]? = some s.words[p / 64] := by
      rw [← hword, Array.getElem?_eq_getElem hw]
    rw [if_pos hword, hq, Option.map_some, Option.getD_some, Option.getD_some]
    have hmod : q = p ↔ p % 64 = q % 64 := by omega
    cases b <;>
      simp only [Bool.false_eq_true, if_false, if_true, BitVec.getLsbD_and, BitVec.getLsbD_or,
        BitVec.getLsbD_not, BitVec.getLsbD_twoPow, hmod] <;>
      by_cases hbit : p % 64 = q % 64 <;>
      simp [hbit, Nat.mod_lt]
  · have : q ≠ p := fun hq => hword (by rw [hq])
    rw [if_neg hword, if_neg this]

theorem Canonical.mark {s : BitSet} (h : s.Canonical) (p : Nat) (b : Bool) :
    (s.mark p b).Canonical := by
  by_cases hp : p < s.size
  · refine ⟨?_, fun q hq => ?_⟩
    · rw [size_mark, ← h.size_words, BitSet.mark, if_pos hp]
      exact Array.size_modify
    · rw [size_mark] at hq
      rw [h.bit_mark hp, if_neg (by omega), h.bit_beyond q hq]
  · rwa [BitSet.mark, if_neg hp]

/-- Marking a position changes that position only. -/
theorem Canonical.mem_mark {s : BitSet} (h : s.Canonical) (p : Nat) (b : Bool) (q : Nat) :
    (s.mark p b).mem q = if q = p ∧ p < s.size then b else s.mem q := by
  by_cases hp : p < s.size
  · rw [(h.mark p b).mem_eq_bit, h.bit_mark hp, h.mem_eq_bit]
    simp [hp]
  · rw [BitSet.mark, if_neg hp, if_neg (fun hq => hp hq.2)]

/-! ## Positions -/

/-- A number whose lowest bit is bit `t` is an odd multiple of `2 ^ t`. -/
theorem eq_of_lowest {x t : Nat} (ht : x.testBit t = true) (hlow : ∀ i < t, x.testBit i = false) :
    x = 2 ^ t * (2 * (x / 2 ^ t / 2) + 1) := by
  have hmod : x % 2 ^ t = 0 := by
    refine Nat.eq_of_testBit_eq fun i => ?_
    rw [Nat.testBit_mod_two_pow, Nat.zero_testBit]
    by_cases hi : i < t
    · rw [hlow i hi, Bool.and_false]
    · rw [decide_eq_false hi, Bool.false_and]
  have hodd : x / 2 ^ t % 2 = 1 := by
    rw [Nat.testBit_eq_decide_div_mod_eq, decide_eq_true_eq] at ht
    exact ht
  have hdiv := Nat.div_add_mod x (2 ^ t)
  have hhalf := Nat.div_add_mod (x / 2 ^ t) 2
  rw [hodd] at hhalf
  rw [hhalf]
  omega

/-- Below the lowest bit of a number, all bits of its predecessor are set; that bit is not, and all others are as
they were. So the bits that both have are those of the number without the lowest. -/
theorem testBit_and_pred {x t : Nat} (ht : x.testBit t = true) (hlow : ∀ i < t, x.testBit i = false)
    (i : Nat) : (x &&& (x - 1)).testBit i = (x.testBit i && decide (i ≠ t)) := by
  have hx := eq_of_lowest ht hlow
  generalize x / 2 ^ t / 2 = half at hx
  have hpow : 0 < 2 ^ t := Nat.two_pow_pos t
  have hpred : x - 1 = 2 ^ t * (2 * half) + (2 ^ t - 1) := by
    rw [hx, Nat.mul_add]
    omega
  rw [Nat.testBit_and]
  rcases Nat.lt_trichotomy i t with hi | rfl | hi
  · rw [hlow i hi, Bool.false_and, Bool.false_and]
  · rw [hpred, Nat.testBit_two_pow_mul_add _ (Nat.sub_lt hpow Nat.one_pos), if_neg (Nat.lt_irrefl i)]
    simp
  · rw [hpred, Nat.testBit_two_pow_mul_add _ (Nat.sub_lt hpow Nat.one_pos), if_neg (Nat.lt_asymm hi)]
    have hsame : x.testBit i = (2 * half).testBit (i - t) := by
      obtain ⟨j, hj⟩ : ∃ j, i - t = j + 1 := ⟨i - t - 1, by omega⟩
      have hodd : (2 * half + 1) / 2 = 2 * half / 2 := by omega
      rw [hx, Nat.testBit_two_pow_mul, decide_eq_true (Nat.le_of_lt hi), Bool.true_and, hj,
        Nat.testBit_succ, Nat.testBit_succ, hodd]
    rw [← hsame]
    simp [Nat.ne_of_gt hi]

/-- A search finds what is listed first. -/
theorem filter_eq_of_find? {α : Type} [DecidableEq α] {p : α → Bool} {xs : List α} (hxs : xs.Nodup) {x : α}
    (h : xs.find? p = some x) : xs.filter p = x :: xs.filter fun y => p y && decide (y ≠ x) := by
  induction xs with
  | nil => cases h
  | cons y xs ih =>
    obtain ⟨hy, hxs⟩ := List.nodup_cons.1 hxs
    by_cases hpy : p y = true
    · rw [List.find?_cons_of_pos hpy] at h
      cases h
      have hrest : (xs.filter fun z => p z && decide (z ≠ x)) = xs.filter p :=
        List.filter_congr fun z hz => by simp [show z ≠ x from fun heq => hy (heq ▸ hz)]
      rw [List.filter_cons_of_pos hpy, List.filter_cons_of_neg (by simp), hrest]
    · rw [List.find?_cons_of_neg hpy] at h
      rw [List.filter_cons_of_neg hpy, List.filter_cons_of_neg (by simp [hpy]), ih hxs h]

theorem find?_trailingZeros {w : BitVec 64} (hw : w ≠ 0) :
    (List.range 64).find? w.getLsbD = some (trailingZeros w) := by
  unfold trailingZeros
  cases hfind : (List.range 64).find? w.getLsbD with
  | some t => rfl
  | none =>
    refine absurd (BitVec.eq_of_getLsbD_eq fun i hi => ?_) hw
    have hclear := List.find?_eq_none.1 hfind i (List.mem_range.2 hi)
    simpa using hclear

/-- Clearing the lowest bit leaves the others. -/
theorem getLsbD_and_pred {w : BitVec 64} (hw : w ≠ 0) (i : Nat) :
    (w &&& (w - 1)).getLsbD i = (w.getLsbD i && decide (i ≠ trailingZeros w)) := by
  have hfind := find?_trailingZeros hw
  have hlow : ∀ j < trailingZeros w, w.toNat.testBit j = false := by
    intro j hj
    have hclear : w.getLsbD j = false := by simpa using (List.find?_range_eq_some.1 hfind).2.2 j hj
    exact hclear
  have hpos : 0 < w.toNat := Nat.pos_of_ne_zero fun hzero => hw (BitVec.eq_of_toNat_eq hzero)
  have hsub : (w - 1).toNat = w.toNat - 1 := BitVec.toNat_sub_of_le (BitVec.le_def.2 hpos)
  have hbits := testBit_and_pred (List.find?_some hfind) hlow i
  rw [← hsub, ← BitVec.toNat_and] at hbits
  exact hbits

/-- The bits that are found by clearing one after the other are those that are set. -/
theorem setBits_eq (w : BitVec 64) : setBits w = (List.range 64).filter w.getLsbD := by
  fun_induction setBits w with
  | case1 => simp
  | case2 w hw ih =>
    rw [ih, filter_eq_of_find? List.nodup_range (find?_trailingZeros hw)]
    exact congrArg _ (List.filter_congr fun i _ => getLsbD_and_pred hw i)

theorem mem_wordPositions {w : BitVec 64} {i p : Nat} :
    p ∈ wordPositions w i ↔ p / 64 = i ∧ w.getLsbD (p % 64) = true := by
  simp only [wordPositions, setBits_eq, List.mem_map, List.mem_filter, List.mem_range]
  constructor
  · rintro ⟨j, ⟨hj, hbit⟩, rfl⟩
    exact ⟨by omega, by rwa [Nat.mul_add_mod, Nat.mod_eq_of_lt hj]⟩
  · rintro ⟨rfl, hbit⟩
    exact ⟨p % 64, ⟨Nat.mod_lt _ (by decide), hbit⟩, Nat.div_add_mod p 64⟩

theorem mem_positions {s : BitSet} {p : Nat} : p ∈ s.positions ↔ s.bit p = true := by
  unfold positions bit
  simp only [List.mem_flatMap, List.mem_zipIdx_iff_getElem?, Prod.exists, mem_wordPositions,
    Array.getElem?_toList, Array.getD_eq_getD_getElem?]
  constructor
  · rintro ⟨w, i, hw, rfl, hbit⟩
    rwa [hw]
  · intro hbit
    cases hw : s.words[p / 64]? with
    | none => simp [hw] at hbit
    | some w => exact ⟨w, p / 64, hw, rfl, by simpa [hw] using hbit⟩

theorem pairwise_wordPositions (w : BitVec 64) (i : Nat) :
    (wordPositions w i).Pairwise (· < ·) := by
  rw [wordPositions, setBits_eq]
  refine List.pairwise_map.2 ((List.pairwise_lt_range.filter _).imp ?_)
  exact fun h => Nat.add_lt_add_left h _

/-- The positions are listed in ascending order. -/
theorem pairwise_positions (s : BitSet) : s.positions.Pairwise (· < ·) := by
  unfold positions
  refine List.pairwise_flatMap.2 ⟨fun a _ => pairwise_wordPositions a.1 a.2, ?_⟩
  have hsorted : s.words.toList.zipIdx.Pairwise fun a b => a.2 < b.2 := by
    rw [← List.pairwise_map (f := Prod.snd), List.zipIdx_map_snd]
    exact List.pairwise_lt_range'
  refine hsorted.imp fun {a b} hlt x hx y hy => ?_
  have hx := (mem_wordPositions.1 hx).1
  have hy := (mem_wordPositions.1 hy).1
  omega

theorem length_wordPositions (w : BitVec 64) (i : Nat) :
    (wordPositions w i).length = countWord w := by
  rw [wordPositions, List.length_map, setBits_eq, countWord]
  split
  · next hw => simp [hw]
  · exact List.countP_eq_length_filter.symm

theorem count_eq_length_positions (s : BitSet) : s.count = s.positions.length := by
  have hsum : ∀ (ws : List (BitVec 64)) (n i : Nat), ws.foldl (fun n w => n + countWord w) n =
      n + ((ws.zipIdx i).flatMap fun word => wordPositions word.1 word.2).length := by
    intro ws
    induction ws with
    | nil => simp
    | cons w ws ih =>
      intro n i
      simp only [List.foldl_cons, List.zipIdx_cons, List.flatMap_cons, List.length_append,
        length_wordPositions, ih _ (i + 1), Nat.add_assoc]
  unfold count positions
  rw [← Array.foldl_toList, hsum s.words.toList 0 0, Nat.zero_add]

end Orthotope.BitSet
