import Mathlib.Data.List.Basic
import Orthotope.Index.Lemmas

/-!
# Keys of derived indices

Masking an index and taking part of it can be repeated in any order. `Index.Derived` says that an index
was made in that way from a base. The positions that it shows are then an ascending part of the
positions of its base (`Index.Derived.pairwise_positions`, `Index.Derived.lt_of_mem`), so that the
search for a base position finds the place that shows it (`Index.Derived.placeOf_eq_some_iff`). Hence
every position has a key, and the position of that key is the one it came from
(`Index.Derived.indexOf_keyOf`).

A part keeps the keys from its start on (`Index.keyOf_sub`). What a mask keeps is said for whole axes, in
`Dimension.shows_mask`.
-/

namespace Orthotope

namespace Base

variable {κ : Type} {base : Base κ} {i : Nat} {key : Key κ}

/-- Every position of a base has a key. -/
theorem exists_keyOf (h : i < base.size) : ∃ key, base.keyOf i = some key := by
  cases base with
  | natural name size => exact ⟨.number i, if_pos h⟩
  | labelled name keys distinct => exact ⟨keys[i], Array.getElem?_eq_getElem h⟩

/-- No two positions of a base have the same key. -/
theorem indexOf_keyOf [DecidableEq κ] (h : base.keyOf i = some key) : base.indexOf key = some i := by
  cases base with
  | natural name size =>
    simp only [keyOf] at h
    split at h
    · next hlt =>
      cases h
      simp [indexOf, hlt]
    · cases h
  | labelled name keys distinct =>
    simp only [keyOf] at h
    obtain ⟨hlt, rfl⟩ := Array.getElem?_eq_some_iff.1 h
    exact List.findIdx?_eq_some_iff_getElem.2 ⟨hlt, by simp, fun j hj heq => by
      have hne := List.pairwise_iff_getElem.1 distinct j i (Nat.lt_trans hj hlt) hlt hj
      exact hne (by simpa using heq)⟩

/-- Only positions of a base have keys. -/
theorem lt_of_keyOf (h : base.keyOf i = some key) : i < base.size := by
  cases base with
  | natural name size =>
    simp only [keyOf] at h
    split at h
    · assumption
    · cases h
  | labelled name keys distinct => exact (Array.getElem?_eq_some_iff.1 h).1

/-- The position that is found for a key has that key. -/
theorem keyOf_of_indexOf [DecidableEq κ] (h : base.indexOf key = some i) :
    base.keyOf i = some key := by
  cases base with
  | natural name size =>
    cases key with
    | number n =>
      simp only [indexOf] at h
      split at h
      · next hn =>
        obtain rfl : n.toNat = i := Option.some.inj h
        rw [keyOf, if_pos hn.2, Int.toNat_of_nonneg hn.1]
      · cases h
    | text s => cases h
  | labelled name keys distinct =>
    obtain ⟨hlt, heq, -⟩ := List.findIdx?_eq_some_iff_getElem.1 h
    rw [keyOf, ← Array.getElem?_toList, List.getElem?_eq_getElem hlt, eq_of_beq heq]

end Base

namespace Index

variable {κ : Type}

/-- An index that is a base, or is made from such an index by masking it or by taking part of it. -/
inductive Derived : Index κ → Prop where
  | whole (base : Base κ) : Derived (.whole base)
  | mask {index : Index κ} {m : BitSet} (h : Derived index) (canonical : m.Canonical) :
      Derived (index.mask m)
  | sub {index part : Index κ} {start stop : Nat} (h : Derived index)
      (taken : index.sub start stop = .ok part) : Derived part

variable {index part : Index κ} {m : BitSet} {ps : List Nat} {start stop i j p : Nat}

/-! ## Positions -/

/-- The entries that are kept are those at the marked places. -/
theorem keep_eq (m : BitSet) (ps : List Nat) :
    keep m ps = ((List.range ps.length).filter m.mem).map fun i => ps.getD i 0 := by
  have hentries : ps.zipIdx = (List.range ps.length).map fun i => (ps.getD i 0, i) := by
    apply List.ext_getElem
    · simp
    · intro i hi hi'
      have hlt : i < ps.length := by simpa using hi
      simp [hlt]
  rw [keep, hentries, List.filterMap_map, ← List.filterMap_eq_filter, List.map_filterMap]
  refine List.filterMap_congr ?_
  intro i _
  cases hmem : m.mem i <;> simp [hmem, Option.guard]

theorem keep_sublist (m : BitSet) (ps : List Nat) : (keep m ps).Sublist ps := by
  have hfilter := (List.filter_sublist (p := m.mem) (l := List.range ps.length)).map
    fun i => ps.getD i 0
  have hall : (List.range ps.length).map (fun i => ps.getD i 0) = ps := by
    apply List.ext_getElem
    · simp
    · intro i hi hi'
      simp [hi']
  rw [keep_eq]
  rwa [hall] at hfilter

theorem positions_sub_sublist (h : index.sub start stop = .ok part) :
    part.positions.Sublist index.positions := by
  rw [positions_sub h]
  exact (List.take_sublist ..).trans (List.drop_sublist ..)

/-- A derived index shows its base positions in ascending order. -/
theorem Derived.pairwise_positions (h : index.Derived) : index.positions.Pairwise (· < ·) := by
  induction h with
  | whole base => exact List.pairwise_lt_range
  | mask _ canonical ih =>
    rw [positions_mask _ canonical]
    exact ih.sublist (keep_sublist ..)
  | sub _ taken ih => exact ih.sublist (positions_sub_sublist taken)

/-- A derived index shows positions of its base only. -/
theorem Derived.lt_of_mem (h : index.Derived) (hp : p ∈ index.positions) : p < index.base.size := by
  induction h with
  | whole base => exact List.mem_range.1 hp
  | mask _ canonical ih =>
    rw [base_mask]
    rw [positions_mask _ canonical] at hp
    exact ih ((keep_sublist ..).subset hp)
  | sub _ taken ih =>
    rw [base_sub taken]
    exact ih ((positions_sub_sublist taken).subset hp)

/-! ## Looking for a position -/

/-- The places of two entries of an ascending array are ordered as the entries are. -/
theorem lt_iff_of_ascending {ps : Array Nat} (h : ps.toList.Pairwise (· < ·)) {x y : Nat}
    (hi : ps[i]? = some x) (hj : ps[j]? = some y) : i < j ↔ x < y := by
  have hlt : ∀ {i j x y : Nat}, ps[i]? = some x → ps[j]? = some y → i < j → x < y := by
    intro i j x y hi hj hij
    rw [← Array.getElem?_toList] at hi hj
    obtain ⟨hilt, rfl⟩ := List.getElem?_eq_some_iff.1 hi
    obtain ⟨hjlt, rfl⟩ := List.getElem?_eq_some_iff.1 hj
    exact List.pairwise_iff_getElem.1 h i j hilt hjlt hij
  refine ⟨hlt hi hj, fun hxy => ?_⟩
  rcases Nat.lt_trichotomy i j with hij | rfl | hij
  · exact hij
  · rw [hi] at hj
    exact absurd hxy (Nat.not_lt.2 (Nat.le_of_eq (Option.some.inj hj).symm))
  · exact absurd hxy (Nat.lt_asymm (hlt hj hi hij))

/-- The search by halves finds the place of an entry of an ascending array, if it lies in the part that
is searched, and nothing else. -/
theorem placeBetween_eq_some_iff {ps : Array Nat} (h : ps.toList.Pairwise (· < ·)) {low high : Nat}
    (hhigh : high ≤ ps.size) :
    placeBetween ps p low high = some i ↔ low ≤ i ∧ i < high ∧ ps[i]? = some p := by
  fun_induction placeBetween ps p low high with
  | case1 low high hlow middle hcompare =>
    have hentry : ps[middle]? = some p := by
      have hlt : middle < ps.size := by omega
      have hp : ps.getD middle 0 = p := Nat.compare_eq_eq.1 hcompare
      simpa [hlt] using hp
    constructor
    · intro hi
      obtain rfl : middle = i := Option.some.inj hi
      exact ⟨by omega, by omega, hentry⟩
    · rintro ⟨-, -, hi⟩
      have hbefore := lt_iff_of_ascending h hi hentry
      have hafter := lt_iff_of_ascending h hentry hi
      exact congrArg some (by omega)
  | case2 low high hlow middle hcompare ih =>
    have hlt : middle < ps.size := by omega
    have hentry : ps[middle]? = some (ps.getD middle 0) := by simp [hlt]
    have hp : ps.getD middle 0 < p := Nat.compare_eq_lt.1 hcompare
    rw [ih hhigh]
    constructor
    · rintro ⟨hle, hlt, hi⟩
      exact ⟨by omega, hlt, hi⟩
    · rintro ⟨-, hlt, hi⟩
      exact ⟨(lt_iff_of_ascending h hentry hi).2 hp, hlt, hi⟩
  | case3 low high hlow middle hcompare ih =>
    have hlt : middle < ps.size := by omega
    have hentry : ps[middle]? = some (ps.getD middle 0) := by simp [hlt]
    have hp : p < ps.getD middle 0 := Nat.compare_eq_gt.1 hcompare
    rw [ih (by omega)]
    constructor
    · rintro ⟨hle, hlt, hi⟩
      exact ⟨hle, by omega, hi⟩
    · rintro ⟨hle, -, hi⟩
      exact ⟨hle, (lt_iff_of_ascending h hi hentry).2 hp, hi⟩
  | case4 low high hlow =>
    constructor
    · intro hi
      cases hi
    · rintro ⟨hle, hlt, -⟩
      omega

/-- The place that is found for a base position is the one that shows it. -/
theorem Derived.placeOf_eq_some_iff (h : index.Derived) (hp : p < index.base.size) :
    index.placeOf p = some i ↔ index.positions[i]? = some p := by
  cases index with
  | whole base =>
    have hp : p < base.size := hp
    simp only [placeOf, positions, List.range_eq_range', getElem?_stretch, Nat.zero_add]
    constructor
    · intro hi
      cases hi
      exact if_pos hp
    · intro hi
      split at hi
      · exact hi.symm
      · cases hi
  | masked name base ps =>
    rw [placeOf, placeBetween_eq_some_iff h.pairwise_positions (Nat.le_refl _)]
    simp only [positions, Array.getElem?_toList]
    constructor
    · rintro ⟨-, -, hi⟩
      exact hi
    · intro hi
      obtain ⟨hlt, -⟩ := Array.getElem?_eq_some_iff.1 hi
      exact ⟨Nat.zero_le i, hlt, hi⟩
  | range name base start stop =>
    simp only [placeOf, positions, getElem?_stretch]
    constructor
    · intro hi
      split at hi
      · cases hi
        rw [if_pos (by omega)]
        exact congrArg some (by omega)
      · cases hi
    · intro hi
      split at hi
      · cases hi
        rw [if_pos (by omega)]
        exact congrArg some (by omega)
      · cases hi

/-! ## Keys -/

/-- Every position of a derived index has a key, and that key is found at the position. -/
theorem Derived.indexOf_keyOf [DecidableEq κ] (h : index.Derived) (hi : i < index.size) :
    ∃ key, index.keyOf i = some key ∧ index.indexOf key = some i := by
  rw [← length_positions] at hi
  have hentry := List.getElem?_eq_getElem hi
  have hlt := h.lt_of_mem (List.getElem_mem hi)
  obtain ⟨key, hkey⟩ := Base.exists_keyOf hlt
  refine ⟨key, ?_, ?_⟩
  · rw [keyOf_eq, hentry]
    exact hkey
  · rw [indexOf, Base.indexOf_keyOf hkey]
    exact (h.placeOf_eq_some_iff hlt).2 hentry

/-- There are no keys beyond the end. -/
theorem keyOf_of_size_le (h : index.size ≤ i) : index.keyOf i = none := by
  rw [keyOf_eq, List.getElem?_eq_none (Nat.le_trans (Nat.le_of_eq (length_positions index)) h)]
  rfl

/-- A key is found just where it is. -/
theorem Derived.indexOf_eq_some_iff_keyOf [DecidableEq κ] (h : index.Derived) {key : Key κ} :
    index.indexOf key = some i ↔ index.keyOf i = some key := by
  constructor
  · intro hindex
    rw [indexOf] at hindex
    obtain ⟨p, hp, hplace⟩ := Option.bind_eq_some_iff.1 hindex
    have hkey := Base.keyOf_of_indexOf hp
    rw [keyOf_eq, (h.placeOf_eq_some_iff (Base.lt_of_keyOf hkey)).1 hplace]
    exact hkey
  · intro hkey
    rcases Nat.lt_or_ge i index.size with hi | hi
    · obtain ⟨key', hkey', hindex⟩ := h.indexOf_keyOf hi
      cases hkey.symm.trans hkey'
      exact hindex
    · rw [keyOf_of_size_le hi] at hkey
      cases hkey

/-- A part keeps the keys from its start on. -/
theorem keyOf_sub (h : index.sub start stop = .ok part) (hi : i < stop - start) :
    part.keyOf i = index.keyOf (start + i) := by
  rw [keyOf_eq, keyOf_eq, positions_sub h, base_sub h, List.getElem?_take, if_pos hi,
    List.getElem?_drop]

end Index

end Orthotope
