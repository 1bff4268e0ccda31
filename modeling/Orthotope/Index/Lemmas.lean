import Orthotope.BitSet.Lemmas
import Orthotope.Index

/-!
# Laws of indices

`Index.positions` lists the base positions that an index shows. Everything else about an index can be
said in terms of this list and its base: the key at place `i` is the base's key at entry `i`
(`Index.keyOf_eq`), masking keeps the marked entries (`Index.positions_mask`) and taking a range keeps
a stretch of them (`Index.positions_sub`).
-/

namespace Orthotope.Index

variable {κ : Type}

/-- The base positions that an index shows, in the order in which it shows them. -/
def positions : Index κ → List Nat
  | whole base => List.range base.size
  | masked _ _ positions => positions.toList
  | range _ _ start stop => List.range' start (stop - start)

@[simp]
theorem length_positions (index : Index κ) : index.positions.length = index.size := by
  cases index <;> simp [positions, size]

/-- Consecutive positions, by their place. -/
theorem getElem?_stretch (start count i : Nat) :
    (List.range' start count)[i]? = if i < count then some (start + i) else none := by
  split
  · next h => rw [List.getElem?_range' h, Nat.one_mul]
  · next h => exact List.getElem?_eq_none (by rw [List.length_range']; omega)

theorem basePosition_eq (index : Index κ) (i : Nat) :
    index.basePosition i = index.positions[i]? := by
  cases index with
  | whole base => simp only [basePosition, positions, List.range_eq_range', getElem?_stretch,
      Nat.zero_add]
  | masked _ _ ps => simp only [basePosition, positions, Array.getElem?_toList]
  | range _ _ start stop => simp only [basePosition, positions, getElem?_stretch]

theorem keyOf_eq (index : Index κ) (i : Nat) :
    index.keyOf i = index.positions[i]?.bind index.base.keyOf := by
  rw [keyOf, basePosition_eq]

@[simp]
theorem base_mask (index : Index κ) (m : BitSet) : (index.mask m).base = index.base := by
  cases index <;> rfl

/-- The entries of a list at the marked places. -/
def keep (m : BitSet) (ps : List Nat) : List Nat :=
  ps.zipIdx.filterMap fun (p, i) => if m.mem i then some p else none

/-- Consecutive positions are kept where their distance from the first is marked. -/
theorem keep_range' (m : BitSet) (start count i : Nat) :
    ((List.range' start count).zipIdx i).filterMap
        (fun (p, i) => if m.mem i then some p else none) =
      ((List.range' i count).filter m.mem).map fun j => start + (j - i) := by
  induction count generalizing start i with
  | zero => rfl
  | succ count ih =>
    have hshift : ∀ j ∈ (List.range' (i + 1) count).filter m.mem,
        start + 1 + (j - (i + 1)) = start + (j - i) := by
      intro j hj
      have := (List.mem_range'_1.1 (List.mem_filter.1 hj).1).1
      omega
    rw [List.range'_succ, List.zipIdx_cons, List.filterMap_cons, ih, List.range'_succ,
      List.filter_cons, List.map_congr_left hshift]
    by_cases h : m.mem i <;> simp [h]

/-- Two ascending lists with the same members are the same. -/
theorem eq_of_pairwise_lt {xs ys : List Nat} (hx : xs.Pairwise (· < ·)) (hy : ys.Pairwise (· < ·))
    (h : ∀ p, p ∈ xs ↔ p ∈ ys) : xs = ys :=
  List.Perm.eq_of_pairwise (fun _ _ _ _ hab hba => absurd hab (Nat.lt_asymm hba)) hx hy
    ((List.perm_ext_iff_of_nodup (hx.imp Nat.ne_of_lt) (hy.imp Nat.ne_of_lt)).2 fun p => h p)

theorem mem_takeWhile_lt {ps : List Nat} (h : ps.Pairwise (· < ·)) {n p : Nat} :
    p ∈ ps.takeWhile (· < n) ↔ p ∈ ps ∧ p < n := by
  induction ps with
  | nil => simp
  | cons q ps ih =>
    rw [List.pairwise_cons] at h
    rw [List.takeWhile_cons]
    by_cases hq : q < n
    · simp only [hq, decide_true, if_true, List.mem_cons, ih h.2]
      constructor
      · rintro (rfl | hp)
        · exact ⟨.inl rfl, hq⟩
        · exact ⟨.inr hp.1, hp.2⟩
      · rintro ⟨rfl | hp, hlt⟩
        · exact .inl rfl
        · exact .inr ⟨hp, hlt⟩
    · simp only [hq, decide_false, Bool.false_eq_true, if_false, List.not_mem_nil, false_iff]
      rintro ⟨hp, hlt⟩
      rcases List.mem_cons.1 hp with rfl | hp
      · exact hq hlt
      · exact hq (Nat.lt_trans (h.1 p hp) hlt)

/-- Masking keeps the positions at the marked places. -/
theorem positions_mask (index : Index κ) {m : BitSet} (h : m.Canonical) :
    (index.mask m).positions = keep m index.positions := by
  cases index with
  | whole base =>
    have hkeep := keep_range' m 0 base.size 0
    have hid : (fun j => 0 + (j - 0)) = (id : Nat → Nat) := funext fun j => by simp
    rw [hid, List.map_id] at hkeep
    show (m.positions.takeWhile (· < base.size)).toArray.toList = keep m (List.range base.size)
    rw [List.toList_toArray, List.range_eq_range', keep, hkeep]
    refine eq_of_pairwise_lt ((BitSet.pairwise_positions m).sublist (List.takeWhile_sublist _))
      ((List.pairwise_lt_range' 1).filter _) fun p => ?_
    rw [mem_takeWhile_lt (BitSet.pairwise_positions m), BitSet.mem_positions, ← h.mem_eq_bit,
      List.mem_filter, List.mem_range'_1, Nat.zero_add]
    exact ⟨fun hp => ⟨⟨Nat.zero_le p, hp.2⟩, hp.1⟩, fun hp => ⟨hp.2, hp.1.2⟩⟩
  | masked name base ps => rfl
  | range name base start stop =>
    have hkeep := keep_range' m start (stop - start) 0
    show (((List.range (stop - start)).filter m.mem).map (start + ·)).toArray.toList =
      keep m (List.range' start (stop - start))
    rw [List.toList_toArray, keep, hkeep, List.range_eq_range']
    simp

/-- Taking a range keeps a stretch of the positions. -/
theorem positions_sub {index part : Index κ} {start stop : Nat} (h : index.sub start stop = .ok part) :
    part.positions = (index.positions.drop start).take (stop - start) := by
  unfold sub at h
  split at h
  · next hle =>
    cases index with
    | whole base =>
      cases h
      have hstop : stop ≤ base.size := hle.2
      simp only [positions, List.range_eq_range', List.drop_range']
      rw [List.take_range'_of_length_ge (by omega), Nat.zero_add, Nat.mul_one]
    | masked name base ps =>
      cases h
      simp [positions, Array.toList_extract, List.extract_eq_take_drop]
    | range name base first last =>
      cases h
      have hstop : stop ≤ last - first := hle.2
      simp only [positions, List.drop_range']
      rw [List.take_range'_of_length_ge (by omega), Nat.mul_one, Nat.add_sub_add_left]
  · cases h

theorem base_sub {index part : Index κ} {start stop : Nat} (h : index.sub start stop = .ok part) :
    part.base = index.base := by
  unfold sub at h
  split at h
  · cases index <;> cases h <;> rfl
  · cases h

end Orthotope.Index
