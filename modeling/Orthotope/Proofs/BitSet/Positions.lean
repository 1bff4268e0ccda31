import Orthotope.Index.Lemmas

/-!
# Canonical sets are determined by their positions

The words of a canonical set leave no choice: two sets with as many positions, of which they mark the
same, are equal (`BitSet.Canonical.eq_iff`). The other questions that a set answers are answered by its
positions as well, which are those below the size that it marks (`BitSet.Canonical.positions_eq`): how
many there are, whether there are none (`BitSet.Canonical.isEmpty_iff`) and whether that is all of them
(`BitSet.Canonical.isFull_iff`).
-/

namespace Orthotope.BitSet

variable {s t : BitSet}

theorem bit_add (s : BitSet) {w i : Nat} (hi : i < 64) :
    s.bit (64 * w + i) = (s.words.getD w 0).getLsbD i := by
  rw [bit, Nat.mul_add_div (by decide), Nat.mul_add_mod, Nat.div_eq_of_lt hi, Nat.mod_eq_of_lt hi,
    Nat.add_zero]

/-- The marks of a set lie below its size. -/
theorem lt_of_mem {p : Nat} (hp : s.mem p = true) : p < s.size := by
  rw [mem_eq, Bool.and_eq_true, decide_eq_true_eq] at hp
  exact hp.1

/-- Canonical sets are equal if they have the same size and mark the same positions. -/
theorem Canonical.eq_iff (hs : s.Canonical) (ht : t.Canonical) :
    s = t ↔ s.size = t.size ∧ ∀ p, s.mem p = t.mem p := by
  constructor
  · rintro rfl
    exact ⟨rfl, fun _ => rfl⟩
  rintro ⟨hsize, hmem⟩
  have hwords : s.words = t.words := by
    refine Array.ext (by rw [hs.size_words, ht.size_words, hsize]) fun w hw hw' => ?_
    refine BitVec.eq_of_getLsbD_eq fun i hi => ?_
    have hbit := hmem (64 * w + i)
    rw [hs.mem_eq_bit, ht.mem_eq_bit, bit_add s hi, bit_add t hi] at hbit
    simpa [Array.getD, hw, hw'] using hbit
  cases s
  cases t
  cases hsize
  cases hwords
  rfl

/-! ## Questions to a set -/

/-- The marked positions of a canonical set are those below its size that are marked. -/
theorem Canonical.positions_eq (h : s.Canonical) :
    s.positions = (List.range s.size).filter s.mem := by
  refine Index.eq_of_pairwise_lt (pairwise_positions s) (List.pairwise_lt_range.filter _) fun p => ?_
  rw [mem_positions, ← h.mem_eq_bit, List.mem_filter, List.mem_range]
  exact ⟨fun hmem => ⟨lt_of_mem hmem, hmem⟩, fun hmem => hmem.2⟩

theorem Canonical.mem_positions_iff (h : s.Canonical) {p : Nat} :
    p ∈ s.positions ↔ p < s.size ∧ s.mem p = true := by
  rw [h.positions_eq, List.mem_filter, List.mem_range]

/-- A canonical set is empty if it marks no position. -/
theorem Canonical.isEmpty_iff (h : s.Canonical) : s.isEmpty = true ↔ ∀ p, s.mem p = false := by
  simp only [isEmpty, Array.all_eq_true, decide_eq_true_eq, h.mem_eq_bit]
  constructor
  · intro hzero p
    rw [bit, Array.getD_eq_getD_getElem?]
    rcases hw : s.words[p / 64]? with _ | word
    · simp
    · obtain ⟨hlt, rfl⟩ := Array.getElem?_eq_some_iff.1 hw
      simp [hzero _ hlt]
  · intro hclear w hw
    refine BitVec.eq_of_getLsbD_eq fun i hi => ?_
    have hbit := hclear (64 * w + i)
    rw [bit_add s hi] at hbit
    simpa [Array.getD, hw] using hbit

/-- A canonical set is full if it marks every position below its size. -/
theorem Canonical.isFull_iff (h : s.Canonical) :
    s.isFull = true ↔ ∀ p < s.size, s.mem p = true := by
  rw [isFull, decide_eq_true_eq, count_eq_length_positions, h.positions_eq]
  conv => lhs; rhs; rw [← List.length_range (n := s.size)]
  rw [List.length_filter_eq_length_iff]
  simp only [List.mem_range]

/-- A full set lists every position. -/
theorem Canonical.positions_of_isFull (h : s.Canonical) (hfull : s.isFull = true) :
    s.positions = List.range s.size := by
  rw [h.positions_eq]
  exact List.filter_eq_self.2 fun p hp => h.isFull_iff.1 hfull p (List.mem_range.1 hp)

end Orthotope.BitSet
