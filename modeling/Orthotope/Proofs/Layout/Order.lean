import Mathlib.Data.List.Lex
import Orthotope.Proofs.Machine.Arithmetic

/-!
# Row-major order

Three loops go over the axes of a shape: the position of coordinates is added up from the first axis on
(`offset?`), the coordinates of a position are divided out from the last axis on (`unravelGuarded`), and a
step to the next coordinates carries from the last axis on (`advance?`). They are the sides of one
isomorphism (`rowMajor_isomorphism`): coordinates in lexicographic order have ascending positions
(`offset_lt_offset_iff`), and a step raises the position by one, until it comes back to zeros
(`advance?_last`).
-/

namespace Orthotope

/-! ## The order of coordinates -/

/-- Coordinates that come later in lexicographic order have a greater position. -/
theorem offset_lt_offset : ∀ {shape cs cs' : List Nat}, Within shape cs → Within shape cs' → cs < cs' →
    offset shape cs < offset shape cs'
  | [], [], [], _, _, hlt => absurd hlt (lt_irrefl _)
  | n :: shape, i :: cs, j :: cs', h, h', hlt => by
    have hcs := offset_lt h.2
    rw [offset_cons n i h.2.length_eq, offset_cons n j h'.2.length_eq]
    rcases List.cons_lt_cons_iff.1 hlt with hij | ⟨rfl, hrest⟩
    · -- The coordinates that follow weigh less than one step on this axis.
      calc i * sizeOf shape + offset shape cs
          < i * sizeOf shape + sizeOf shape := Nat.add_lt_add_left hcs _
        _ = (i + 1) * sizeOf shape := (Nat.succ_mul ..).symm
        _ ≤ j * sizeOf shape := Nat.mul_le_mul_right _ hij
        _ ≤ j * sizeOf shape + offset shape cs' := Nat.le_add_right ..
    · exact Nat.add_lt_add_left (offset_lt_offset h.2 h'.2 hrest) _

theorem offset_lt_offset_iff {shape cs cs' : List Nat} (h : Within shape cs) (h' : Within shape cs') :
    offset shape cs < offset shape cs' ↔ cs < cs' := by
  refine ⟨fun hlt => ?_, offset_lt_offset h h'⟩
  rcases lt_trichotomy cs cs' with hcs | rfl | hcs
  · exact hcs
  · exact absurd hlt (Nat.lt_irrefl _)
  · exact absurd (offset_lt_offset h' h hcs) (Nat.lt_asymm hlt)

/-! ## Positions in range -/

/-- A shape with positions has no empty axis. -/
theorem zero_notMem_of_sizeOf_pos {shape : List Nat} (h : 0 < sizeOf shape) : 0 ∉ shape := by
  induction shape with
  | nil => exact List.not_mem_nil
  | cons n shape ih =>
    have hn : 0 ≠ n := Nat.ne_of_lt (Nat.pos_of_mul_pos_right h)
    exact fun hmem => (List.mem_cons.1 hmem).elim hn (ih (Nat.pos_of_mul_pos_left h))

theorem unravel?_of_pos {shape : List Nat} (h : 0 < sizeOf shape) (p : Nat) :
    unravel? shape p = .ok (unravel shape p) := if_neg (zero_notMem_of_sizeOf_pos h)

/-- Dividing out all axes leaves nothing of a position in range. -/
theorem unravelGuarded_of_lt {shape : List Nat} {p : Nat} (h : p < sizeOf shape) :
    unravelGuarded shape p = .ok (unravel shape p, 0) := by
  rw [unravelGuarded_eq (Nat.zero_lt_of_lt h), Nat.div_eq_of_lt h]

theorem unravel_zero (shape : List Nat) : unravel shape 0 = List.replicate shape.length 0 := by
  induction shape with
  | nil => rfl
  | cons n shape ih => rw [unravel, ih, Nat.zero_div, Nat.zero_mod]; rfl

/-- The position after the last one has the coordinates of the first. -/
theorem unravel_sizeOf (shape : List Nat) :
    unravel shape (sizeOf shape) = List.replicate shape.length 0 := by
  have hwrap := unravel_add_mul 1 0 shape
  rwa [Nat.one_mul, Nat.add_zero, unravel_zero] at hwrap

/-- A step from the coordinates of a position never lacks a coordinate. -/
theorem advance?_unravel {shape : List Nat} {p : Nat} (h : p < sizeOf shape) :
    advance? shape (unravel shape p) = .ok (decide (p + 1 < sizeOf shape), unravel shape (p + 1)) := by
  rw [advance?, if_neg (by rw [length_unravel]; exact Nat.lt_irrefl _), advance_unravel h]

/-- The step from the last position comes back to zeros. -/
theorem advance?_last {shape : List Nat} {p : Nat} (h : p + 1 = sizeOf shape) :
    advance? shape (unravel shape p) = .ok (false, List.replicate shape.length 0) := by
  rw [advance?_unravel (Nat.lt_of_succ_le (Nat.le_of_eq h)), h, unravel_sizeOf,
    decide_eq_false (Nat.lt_irrefl _)]

/-! ## The isomorphism -/

/-- Row-major addressing is an isomorphism between the coordinates that lie in a shape, in lexicographic
order, and the positions below its size. Coordinates have a position just if they lie in the shape, and
then it is the one that is found without any check. What is added up on the way is a position in the axes
before, so that all sums fit where the products of these axes do. A position in range is divided out without
a remainder into coordinates that lead back to it, and a step from them leads to those of the next position,
or to zeros after the last one. -/
theorem rowMajor_isomorphism (shape : List Nat) :
    (∀ cs p, offset? shape cs = .ok p ↔ Within shape cs ∧ p = offset shape cs) ∧
    (∀ cs, Within shape cs → offset shape cs < sizeOf shape) ∧
    (∀ (cs : List Nat) (n : Nat), Within (shape.take n) (cs.take n) →
      offset (shape.take n) (cs.take n) < sizeOf (shape.take n)) ∧
    (∀ cs cs', Within shape cs → Within shape cs' →
      (offset shape cs < offset shape cs' ↔ cs < cs')) ∧
    (∀ cs, Within shape cs → unravel? shape (offset shape cs) = .ok cs) ∧
    ∀ p < sizeOf shape, ∃ cs, unravel? shape p = .ok cs ∧ unravelGuarded shape p = .ok (cs, 0) ∧
      Within shape cs ∧ offset? shape cs = .ok p ∧
      (p + 1 < sizeOf shape → ∃ next, unravel? shape (p + 1) = .ok next ∧
        advance? shape cs = .ok (true, next)) ∧
      (p + 1 = sizeOf shape → advance? shape cs = .ok (false, List.replicate shape.length 0)) := by
  refine ⟨fun cs p => offset?_eq_ok_iff, fun cs hcs => offset_lt hcs, fun cs n hcs => offset_lt hcs,
    fun cs cs' h h' => offset_lt_offset_iff h h', fun cs hcs => ?_, fun p hp => ?_⟩
  · rw [unravel?_of_pos (Nat.zero_lt_of_lt (offset_lt hcs)), unravel_offset hcs]
  · have hpos : 0 < sizeOf shape := Nat.zero_lt_of_lt hp
    have hwithin : Within shape (unravel shape p) := within_unravel hpos
    have hback : offset? shape (unravel shape p) = .ok p :=
      offset?_eq_ok_iff.2 ⟨hwithin, (offset_unravel hp).symm⟩
    refine ⟨unravel shape p, unravel?_of_pos hpos p, unravelGuarded_of_lt hp, hwithin, hback,
      fun hnext => ?_, advance?_last⟩
    refine ⟨unravel shape (p + 1), unravel?_of_pos hpos (p + 1), ?_⟩
    rw [advance?_unravel hp, decide_eq_true hnext]

/-- A step carries over an axis of length one to the first axis, and from there back to zeros. -/
theorem rowMajor_isomorphism_carry :
    Within [2, 1, 3] [0, 0, 2] ∧ Within [2, 1, 3] [1, 0, 0] ∧
      offset [2, 1, 3] [0, 0, 2] < offset [2, 1, 3] [1, 0, 0] ∧
      unravel? [2, 1, 3] (offset [2, 1, 3] [1, 0, 0]) = .ok [1, 0, 0] ∧
      advance? [2, 1, 3] [0, 0, 2] = .ok (true, [1, 0, 0]) ∧
      advance? [2, 1, 3] [1, 0, 2] = .ok (false, [0, 0, 0]) := by
  have hlast : Within [2, 1, 3] [0, 0, 2] := ⟨by decide, by decide, by decide, trivial⟩
  have hfirst : Within [2, 1, 3] [1, 0, 0] := ⟨by decide, by decide, by decide, trivial⟩
  obtain ⟨-, -, -, horder, hinverse, hpositions⟩ := rowMajor_isomorphism [2, 1, 3]
  obtain ⟨cs, hcs, -, -, -, hnext, -⟩ := hpositions 2 (by decide)
  obtain ⟨end', hend, -, -, -, -, hzeros⟩ := hpositions 5 (by decide)
  obtain ⟨next, hstep, hadvance⟩ := hnext (by decide)
  cases hcs
  cases hend
  cases hstep
  exact ⟨hlast, hfirst, (horder _ _ hlast hfirst).2 (by decide), hinverse _ hfirst, hadvance,
    hzeros rfl⟩

end Orthotope
