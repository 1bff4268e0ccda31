import Orthotope.Proofs.Index.Keys

/-!
# Cutting an index down

Masking an index and taking part of it are its two cuts (`Cut`). A cut of a list of positions is plain:
it keeps the marked entries or a stretch of them (`Cut.select`). An index never nests: each of its three
forms has its own way to be cut, and the result is again one step away from the base. Nevertheless an
index that is cut any number of times shows exactly what the same cuts leave of the list of all positions
of its base (`Index.exists_cutAll`).

That list is ascending, so the base position of a key is at one place of it at most, and positions and
keys of the index that is left correspond to each other one by one (`Index.cutAll_bijective`).
-/

namespace Orthotope

/-- A cut of an index. -/
inductive Cut where
  /-- Keeps the marked positions. -/
  | mask (marks : BitSet) (canonical : marks.Canonical)
  /-- Keeps the positions from `start` on and below `stop`. -/
  | sub (start stop : Nat)

namespace Cut

variable {κ : Type}

/-- Cuts an index. -/
def make (index : Index κ) : Cut → Except Error (Index κ)
  | mask marks _ => .ok (index.mask marks)
  | sub start stop => index.sub start stop

/-- What a cut leaves of a list. Marks beyond its end do not matter. -/
def select (ps : List Nat) : Cut → List Nat
  | mask marks _ => Index.keep marks ps
  | sub start stop => (ps.drop start).take (stop - start)

/-- A part lies within so many positions. -/
def Fits (size : Nat) : Cut → Prop
  | mask .. => True
  | sub start stop => start ≤ stop ∧ stop ≤ size

/-- What some cuts leave of a list, one after the other. -/
def selectAll (ps : List Nat) : List Cut → List Nat
  | [] => ps
  | cut :: cuts => selectAll (cut.select ps) cuts

/-- Each part lies within what the cuts before it leave. -/
def FitsAll (ps : List Nat) : List Cut → Prop
  | [] => True
  | cut :: cuts => cut.Fits ps.length ∧ FitsAll (cut.select ps) cuts

end Cut

namespace Index

variable {κ : Type} {index part : Index κ} {cut : Cut} {cuts : List Cut}

/-- Cuts an index some number of times. -/
def cutAll (index : Index κ) : List Cut → Except Error (Index κ)
  | [] => .ok index
  | cut :: cuts => do cutAll (← cut.make index) cuts

/-- A cut that fits succeeds. It does to the positions shown what it does to any list. -/
theorem exists_make (h : index.Derived) (hfits : cut.Fits index.positions.length) :
    ∃ part, cut.make index = .ok part ∧ part.Derived ∧ part.base = index.base ∧
      part.positions = cut.select index.positions := by
  cases cut with
  | mask marks canonical =>
    exact ⟨index.mask marks, rfl, h.mask canonical, base_mask index marks,
      positions_mask index canonical⟩
  | sub start stop =>
    have hrange : start ≤ stop ∧ stop ≤ index.size := length_positions index ▸ hfits
    obtain ⟨part, hpart⟩ : ∃ part, index.sub start stop = .ok part := ⟨_, if_pos hrange⟩
    exact ⟨part, hpart, h.sub hpart, base_sub hpart, positions_sub hpart⟩

/-- Cuts that fit succeed one after the other. They do to the positions shown what they do to any
list. -/
theorem exists_cutAll (h : index.Derived) (hfits : Cut.FitsAll index.positions cuts) :
    ∃ part, index.cutAll cuts = .ok part ∧ part.Derived ∧ part.base = index.base ∧
      part.positions = Cut.selectAll index.positions cuts := by
  induction cuts generalizing index with
  | nil => exact ⟨index, rfl, h, rfl, rfl⟩
  | cons cut cuts ih =>
    obtain ⟨middle, hmake, hmiddle, hbase, hpositions⟩ := exists_make h hfits.1
    obtain ⟨part, hcut, hpart, hbase', hpositions'⟩ := ih hmiddle (hpositions ▸ hfits.2)
    rw [hpositions] at hpositions'
    refine ⟨part, ?_, hpart, hbase'.trans hbase, hpositions'⟩
    rw [cutAll, hmake]
    exact hcut

variable [DecidableEq κ]

/-- The position of a key is the place that shows the key's position in the base. -/
theorem Derived.indexOf_eq_some_iff (h : index.Derived) {key : Key κ} {i : Nat} :
    index.indexOf key = some i ↔
      ∃ p, index.positions[i]? = some p ∧ index.base.indexOf key = some p := by
  rw [indexOf, Option.bind_eq_some_iff]
  constructor
  · rintro ⟨p, hkey, hplace⟩
    have hlt := Base.lt_of_keyOf (Base.keyOf_of_indexOf hkey)
    exact ⟨p, (h.placeOf_eq_some_iff hlt).1 hplace, hkey⟩
  · rintro ⟨p, hentry, hkey⟩
    have hlt := Base.lt_of_keyOf (Base.keyOf_of_indexOf hkey)
    exact ⟨p, hkey, (h.placeOf_eq_some_iff hlt).2 hentry⟩

/-- Cutting a base down leaves an index whose positions and keys are in exact correspondence. It shows
what the cuts leave of the positions of the base, in ascending order and with the keys of the base, and
finds a key just if the base finds it at a position that is left. -/
theorem cutAll_bijective (base : Base κ) (hfits : Cut.FitsAll (List.range base.size) cuts) :
    let ps := Cut.selectAll (List.range base.size) cuts
    ps.Pairwise (· < ·) ∧ ∃ index : Index κ, (whole base).cutAll cuts = .ok index ∧
      index.size = ps.length ∧
      (∀ i, index.keyOf i = ps[i]?.bind base.keyOf) ∧
      (∀ key i, index.indexOf key = some i ↔ ∃ p, ps[i]? = some p ∧ base.indexOf key = some p) ∧
      (∀ i < ps.length, ∃ key, index.keyOf i = some key ∧ index.indexOf key = some i) ∧
      (∀ key i, index.indexOf key = some i → index.keyOf i = some key) := by
  obtain ⟨index, hcut, hindex, hbase, hpositions⟩ := exists_cutAll (.whole base) hfits
  have hbase : index.base = base := hbase
  have hsize : index.size = (Cut.selectAll (List.range base.size) cuts).length := by
    rw [← length_positions, hpositions]
    rfl
  have hkey : ∀ i,
      index.keyOf i = (Cut.selectAll (List.range base.size) cuts)[i]?.bind base.keyOf := by
    intro i
    rw [keyOf_eq, hpositions, hbase]
    rfl
  have hfind : ∀ key i, index.indexOf key = some i ↔
      ∃ p, (Cut.selectAll (List.range base.size) cuts)[i]? = some p ∧ base.indexOf key = some p := by
    intro key i
    rw [hindex.indexOf_eq_some_iff, hpositions, hbase]
    rfl
  refine ⟨hpositions ▸ hindex.pairwise_positions, index, hcut, hsize, hkey, hfind, ?_, ?_⟩
  · intro i hi
    exact hindex.indexOf_keyOf (hsize ▸ hi)
  · intro key i hi
    obtain ⟨p, hentry, hp⟩ := (hfind key i).1 hi
    rw [hkey, hentry]
    exact Base.keyOf_of_indexOf hp

/-- Of five labelled positions, a part of a mask of a part is left, the mask being longer than what it is
put on. -/
theorem cutAll_bijective_part_of_mask :
    let base : Base := .labelled "L" #[.text "a", .text "b", .text "c", .text "d", .text "e"]
      (by decide)
    let marks := (BitSet.full 70).mark 1 false
    let cuts := [.sub 1 5, .mask marks ((BitSet.canonical_full 70).mark 1 false), .sub 1 3]
    ∃ index, (whole base).cutAll cuts = .ok index ∧
      index.keyOf 1 = some (.text "e") ∧ index.indexOf (.text "d") = some 0 := by
  intro base marks cuts
  have hfits : Cut.FitsAll (List.range base.size) cuts :=
    ⟨⟨by decide, by decide⟩, trivial, ⟨by decide, by decide +kernel⟩, trivial⟩
  obtain ⟨-, index, hcut, -, hkey, hfind, -⟩ := cutAll_bijective base hfits
  have hleft : Cut.selectAll (List.range base.size) cuts = [3, 4] := by decide +kernel
  rw [hleft] at hkey hfind
  exact ⟨index, hcut, hkey 1, (hfind _ 0).2 ⟨3, rfl, by decide⟩⟩

end Index

end Orthotope
