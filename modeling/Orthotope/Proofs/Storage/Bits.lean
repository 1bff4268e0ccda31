import Orthotope.BitSet.Lemmas
import Orthotope.Proofs.Channel.Faithful
import Orthotope.Storage.Bits

/-!
# Packed truth values are faithful

Truth values in a canonical bit set of the right size can be read and written one by one and in bulk
(`Bits.faithful`). New sets hold what they were made of.
-/

namespace Orthotope.Bits

variable {size : Nat} {s : BitSet} {f : Nat → Bool}

/-- A bit set of `size` positions holds its marks. -/
def Holds (size : Nat) (s : BitSet) (f : Nat → Bool) : Prop :=
  (s.Canonical ∧ s.size = size) ∧ ∀ p < size, s.mem p = f p

theorem Holds.mark {p : Nat} (h : Holds size s f) (hp : p < size) (b : Bool) :
    Holds size (s.mark p b) (Function.update f p b) := by
  obtain ⟨⟨hcanon, hsize⟩, hmem⟩ := h
  refine ⟨⟨hcanon.mark p b, by rw [BitSet.size_mark, hsize]⟩, fun q hq => ?_⟩
  rw [hcanon.mem_mark, Function.update_apply, hmem q hq, hsize]
  by_cases hqp : q = p <;> simp [hqp, hp]

/-- A bulk write marks one position after the other. -/
theorem assignAll_eq (s : BitSet) (p : Nat) (bs : List Bool) :
    assignAll s p bs = replaceEach BitSet.mark s p bs := by
  induction bs generalizing s p with
  | nil => rfl
  | cons b bs ih => exact ih (s.mark p b) (p + 1)

theorem Holds.serves (h : Holds size s f) : (channel size).Serves (Holds size) s f where
  get {p} hp := by
    refine (congrFun (Channel.outcome_checked hp _) s).trans ?_
    rw [Act.outcome_ofEffect, Effect.run_look, h.2 p hp]
  set {p} b hp := ⟨s.mark p b, congrFun (Channel.outcome_checked hp _) s, h.mark hp b⟩
  read {p n} hle := by
    rw [Channel.outcome_readSpan_look (g := fun s => (List.range n).map fun i => s.mem (p + i)) rfl hle,
      ← Channel.map_range'_congr h.2 hle, ← Channel.map_range_add]
  write {p bs} hle := by
    refine ⟨assignAll s p bs, congrFun (Channel.outcome_writeWithin hle _) s, ?_⟩
    rw [assignAll_eq]
    exact replaceEach_holds (fun b hs hp => hs.mark hp b) h hle
  set_lt hset := Channel.lt_of_checked hset
  write_le hwrite := Channel.le_of_writeWithin hwrite

theorem faithful (size : Nat) : (channel size).Faithful (Holds size) where
  serves h := h.serves
  congr h hfg := ⟨h.1, fun p hp => (h.2 p hp).trans (hfg p hp)⟩

theorem holds_empty (size : Nat) : Holds size (.empty size) fun _ => false :=
  ⟨⟨BitSet.canonical_empty size, rfl⟩, fun p _ => BitSet.mem_empty size p⟩

theorem holds_mem (h : s.Canonical) : Holds s.size s s.mem := ⟨⟨h, rfl⟩, fun _ _ => rfl⟩

end Orthotope.Bits
