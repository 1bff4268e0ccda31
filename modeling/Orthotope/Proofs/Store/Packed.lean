import Orthotope.Proofs.BitSet.Edits
import Orthotope.Proofs.Storage.Gapless
import Orthotope.Proofs.Store.Requests

/-!
# Packed truth values answer as dense ones

A bit set that stands for a list of truth values marks the positions of its true entries
(`BitSet.StandsFor`). One request to packed storage is answered as by the list, and leaves a set that
stands for the list that is left (`BitSet.StandsFor.answer`), so that a leaf cube over packed storage
answers every list of requests as a flat list of truth values (`Bits.answers_of_keepsMarks`). Dense
storage does the same. New storage of both kinds stands for the same list, whatever the chunks of the
dense storage are, so that no request tells the one from the other
(`Bits.answers_as_dense`).
-/

namespace Orthotope

/-! ## Sets that stand for lists -/

namespace BitSet

variable {s : BitSet} {bs : List Bool}

/-- A canonical set with one position for each entry of a list, which marks the true ones. -/
def StandsFor (s : BitSet) (bs : List Bool) : Prop :=
  s.Represents bs.length fun p => bs.getD p false

theorem StandsFor.sized (h : s.StandsFor bs) : Bits.Sized bs.length s := ⟨h.canonical, h.size_eq⟩

theorem standsFor_empty (size : Nat) : (empty size).StandsFor (List.replicate size false) where
  canonical := canonical_empty size
  size_eq := List.length_replicate.symm
  mem_eq p hp := by
    rw [List.length_replicate] at hp
    simp [mem_empty, hp]

theorem StandsFor.mem_of_getElem? {p : Nat} {b : Bool} (h : s.StandsFor bs) (hb : bs[p]? = some b) :
    s.mem p = b := by
  obtain ⟨hp, -⟩ := List.getElem?_eq_some_iff.1 hb
  rw [h.mem_eq p hp, List.getD_eq_getElem?_getD, hb, Option.getD_some]

/-- Changing the mark of a position replaces the entry there. -/
theorem StandsFor.mark {p : Nat} (h : s.StandsFor bs) (hp : p < bs.length) (b : Bool) :
    (s.mark p b).StandsFor (bs.set p b) where
  canonical := h.canonical.mark p b
  size_eq := by rw [size_mark, h.size_eq, List.length_set]
  mem_eq q hq := by
    rw [List.length_set] at hq
    rw [h.canonical.mem_mark, h.mem_eq q hq, h.size_eq, List.getD_eq_getElem?_getD,
      List.getD_eq_getElem?_getD, List.getElem?_set]
    by_cases hqp : q = p
    · subst hqp
      simp [hq]
    · simp [hqp, Ne.symm hqp]

/-- The marked positions are those of the true entries. -/
theorem StandsFor.mem_iff (h : s.StandsFor bs) (p : Nat) : s.mem p = true ↔ bs[p]? = some true := by
  cases hb : bs[p]? with
  | some b => rw [h.mem_of_getElem? hb, Option.some_inj]
  | none =>
    refine iff_of_false (fun hp => ?_) (Option.some_ne_none true).symm
    exact absurd (h.size_eq ▸ lt_of_mem hp) (Nat.not_lt.2 (List.getElem?_eq_none_iff.1 hb))

theorem StandsFor.mem_positions (h : s.StandsFor bs) (p : Nat) :
    p ∈ s.positions ↔ bs[p]? = some true := by
  rw [h.answers.mem_positions, ← Represents.mem_iff h, h.mem_iff]

/-- A set counts the true entries. -/
theorem StandsFor.count_eq (h : s.StandsFor bs) : s.count = bs.count true := by
  have hentries : (List.range bs.length).map (bs.getD · false) = bs := by
    apply List.ext_getElem
    · simp
    · intro p hp hp'
      simp [hp']
  rw [h.answers.count_eq]
  conv => rhs; rw [← hentries]
  rw [List.count, List.countP_map]
  exact List.countP_congr fun p _ => by simp

/-- Packed truth values answer a request as the list that they stand for. -/
theorem StandsFor.answer {shape : List Nat} (h : s.StandsFor bs) (hlen : bs.length = sizeOf shape)
    (r : Access.Request Bool) :
    (((Bits.access shape).answer r).run s).value = (r.onList false bs).1 ∧
      (((Bits.access shape).answer r).run s).state.StandsFor (r.onList false bs).2 := by
  have hsized : Bits.Sized (sizeOf shape) s := hlen ▸ h.sized
  have hraw := Bits.plain (sizeOf shape)
  have hnullable := (hraw.orNull false).stepwise
  cases r with
  | raw r =>
    simp only [Access.answer, Effect.run_map, Access.Request.onList]
    obtain ⟨hvalue, hstate⟩ := hraw.answer_onList (R := StandsFor)
      (fun h hx => h.mem_of_getElem? hx) (fun b h hp => h.mark hp b) hsized h hlen r
    exact ⟨congrArg Access.Answer.raw hvalue, hstate⟩
  | nullable r =>
    simp only [Access.answer, Effect.run_map, Access.Request.onList]
    obtain ⟨hvalue, hstate⟩ := hnullable.answer_onList (R := StandsFor)
      (fun h hx => congrArg some (h.mem_of_getElem? hx))
      (fun b h hp => h.mark hp (b.getD false)) hsized h hlen r
    exact ⟨congrArg Access.Answer.nullable hvalue, hstate⟩

end BitSet

/-! ## Slots -/

namespace Store

variable {s : Store} {slot : Nat} {shape : List Nat} {bs : List Bool}

/-- A slot has packed storage that stands for a list of as many truth values as the shape has
positions. -/
def KeepsMarks (s : Store) (slot : Nat) (shape : List Nat) (bs : List Bool) : Prop :=
  bs.length = sizeOf shape ∧
    ∃ marks : BitSet, s.leaf? .bool slot = some (.bits marks) ∧ marks.StandsFor bs

/-- A request to a slot with packed storage is answered as by the list. -/
theorem KeepsMarks.answer (h : s.KeepsMarks slot shape bs) (r : Access.Request Bool) :
    (((access .bool slot shape).answer r).run s).value = (r.onList false bs).1 ∧
      KeepsMarks (((access .bool slot shape).answer r).run s).state slot shape
        (r.onList false bs).2 := by
  obtain ⟨hlen, marks, hleaf, hmarks⟩ := h
  obtain ⟨hvalue, hstate⟩ := hmarks.answer hlen r
  rw [(backs_bits hleaf).answer]
  exact ⟨hvalue, (Access.Request.length_onList ..).trans hlen, _, leaf?_restore hleaf, hstate⟩

end Store

namespace Bits

variable {slot : Nat} {dims : List Dimension} {bs : List Bool} {s : Store}

/-- Every list of requests to a leaf cube over packed storage is answered as by the list. -/
theorem answers_of_keepsMarks (h : s.KeepsMarks slot (shapeOf dims) bs)
    (requests : List (Access.Request Bool)) :
    let done := ((Cube.leaf .bool slot dims).elements.answers requests).run s
    let expected := Access.refer (Access.Request.onList false) bs requests
    done.value = expected.1 ∧ done.state.KeepsMarks slot (shapeOf dims) expected.2 :=
  Access.answers_refine (R := fun s bs => Store.KeepsMarks s slot (shapeOf dims) bs)
    (fun r h => h.answer r) requests h

/-- New packed storage stands for a list of which every entry is false. -/
theorem run_make (dims : List Dimension) (w : Workspace) :
    ∃ slot w', (Session.bits dims).run.run w = (.ok (.leaf .bool slot dims), w') ∧
      w'.store.KeepsMarks slot (shapeOf dims) (List.replicate (sizeOf (shapeOf dims)) false) :=
  ⟨_, _, rfl, List.length_replicate, _, Store.leaf?_eq_some.2 Array.getElem?_push_size,
    BitSet.standsFor_empty _⟩

/-- New packed storage and new dense storage cannot be told apart. With the same axes and any chunk
shift, made in the same workspace, they answer every list of requests alike. In what is left the set
counts the true elements of the dense storage, and lists just their positions in ascending order. -/
theorem answers_as_dense (dims : List Dimension) (chunkShift : Nat) (w : Workspace) :
    ∃ slot packed dense,
      (Session.bits dims).run.run w = (.ok (.leaf .bool slot dims), packed) ∧
      (Session.filled .bool dims chunkShift).run.run w = (.ok (.leaf .bool slot dims), dense) ∧
      ∀ requests : List (Access.Request Bool),
        let cube := Cube.leaf .bool slot dims
        let packed' := (cube.elements.answers requests).run packed.store
        let dense' := (cube.elements.answers requests).run dense.store
        packed'.value = dense'.value ∧
        ∃ (marks : BitSet) (d : Dense Bool),
          packed'.state.leaf? .bool slot = some (.bits marks) ∧
          dense'.state.leaf? .bool slot = some (.dense d) ∧
          d.chunkShift = min chunkShift Dense.maxChunkShift ∧
          d.toList.length = sizeOf (shapeOf dims) ∧
          marks.size = d.toList.length ∧
          marks.count = d.toList.count true ∧
          (∀ p, marks.mem p = true ↔ d.toList[p]? = some true) ∧
          (∀ p, p ∈ marks.positions ↔ d.toList[p]? = some true) ∧
          marks.positions.Pairwise (· < ·) := by
  obtain ⟨slot, packed, hrun, hmarks⟩ := run_make dims w
  obtain ⟨slot', dense, hrun', hlist⟩ := (DenseSource.filled (k := .bool) chunkShift).run_make dims w
  have hslot : slot = slot' := by
    cases hrun
    cases hrun'
    rfl
  subst hslot
  refine ⟨slot, packed, dense, hrun, hrun', fun requests => ?_⟩
  obtain ⟨hvalue, hlen, marks, hbits, hstands⟩ := answers_of_keepsMarks hmarks requests
  obtain ⟨hvalue', -, d, hdense, hcut⟩ := DenseSource.answers_of_keepsList hlist requests
  have htoList : d.toList = _ := hcut.toList
  refine ⟨hvalue.trans hvalue'.symm, marks, d, hbits, hdense, hcut.shift_eq, ?_⟩
  rw [htoList]
  exact ⟨hlen, hstands.size_eq, hstands.count_eq, hstands.mem_iff, hstands.mem_positions,
    hstands.answers.pairwise_positions⟩

end Bits

end Orthotope
