import Orthotope.Layout

/-!
# Laws of row-major addresses

Coordinates lie in a shape (`Within`) if there is one below the length of each axis. On those, `offset?`
succeeds and is `offset` (`offset?_eq_ok_iff`), and `unravel` undoes it (`unravel_offset`,
`offset_unravel`). Stepping from a position leads to the next one (`advance_unravel`).
-/

namespace Orthotope

/-- Whether there is one coordinate for each axis, below its length. -/
def Within : (shape coords : List Nat) → Prop
  | [], [] => True
  | n :: shape, i :: coords => i < n ∧ Within shape coords
  | _, _ => False

theorem Within.length_eq : ∀ {shape coords : List Nat}, Within shape coords →
    coords.length = shape.length
  | [], [], _ => rfl
  | _ :: _, _ :: _, h => congrArg (· + 1) h.2.length_eq

/-- The coordinates before those given weigh as much as all positions below them. -/
theorem foldl_offset (acc : Nat) : ∀ {shape coords : List Nat}, coords.length = shape.length →
    (shape.zip coords).foldl (fun acc axis => acc * axis.1 + axis.2) acc =
      acc * sizeOf shape + offset shape coords
  | [], [], _ => by simp [offset]
  | n :: shape, i :: coords, h => by
    have h : coords.length = shape.length := Nat.succ.inj h
    simp only [offset, List.zip_cons_cons, List.foldl_cons, sizeOf_cons]
    rw [foldl_offset (acc * n + i) h, foldl_offset (0 * n + i) h, Nat.zero_mul, Nat.zero_add,
      Nat.add_mul, Nat.mul_assoc, Nat.add_assoc]

@[simp]
theorem offset_nil (coords : List Nat) : offset [] coords = 0 := rfl

theorem offset_cons (n i : Nat) {shape coords : List Nat} (h : coords.length = shape.length) :
    offset (n :: shape) (i :: coords) = i * sizeOf shape + offset shape coords := by
  show (shape.zip coords).foldl _ (0 * n + i) = _
  rw [Nat.zero_mul, Nat.zero_add]
  exact foldl_offset i h

theorem offset_lt : ∀ {shape coords : List Nat}, Within shape coords →
    offset shape coords < sizeOf shape
  | [], [], _ => Nat.one_pos
  | n :: shape, i :: coords, h => by
    have hlt := offset_lt h.2
    rw [offset_cons n i h.2.length_eq, sizeOf_cons]
    calc i * sizeOf shape + offset shape coords
        < i * sizeOf shape + sizeOf shape := Nat.add_lt_add_left hlt _
      _ = (i + 1) * sizeOf shape := (Nat.succ_mul ..).symm
      _ ≤ n * sizeOf shape := Nat.mul_le_mul_right _ h.1

/-- The check of coordinates passes exactly on those in the shape, and then gives their position. -/
theorem offsetFrom_eq_ok_iff (axis acc p : Nat) : ∀ {shape coords : List Nat},
    coords.length = shape.length → (offsetFrom axis acc shape coords = .ok p ↔
      Within shape coords ∧ p = acc * sizeOf shape + offset shape coords)
  | [], [], _ => by simp [offsetFrom, Within, eq_comm]
  | n :: shape, i :: coords, h => by
    have h : coords.length = shape.length := Nat.succ.inj h
    have hoff : acc * (n * sizeOf shape) + offset (n :: shape) (i :: coords) =
        (acc * n + i) * sizeOf shape + offset shape coords := by
      rw [offset_cons n i h, Nat.add_mul, Nat.mul_assoc, Nat.add_assoc]
    rw [offsetFrom, sizeOf_cons, hoff]
    by_cases hi : i < n
    · rw [if_pos hi, offsetFrom_eq_ok_iff _ _ _ h]
      simp [Within, hi]
    · simp [Within, hi]

theorem offset?_eq_ok_iff {shape coords : List Nat} {p : Nat} :
    offset? shape coords = .ok p ↔ Within shape coords ∧ p = offset shape coords := by
  unfold offset?
  split
  · next h => simp [offsetFrom_eq_ok_iff 0 0 p h]
  · next h => exact ⟨nofun, fun hp => absurd hp.1.length_eq h⟩

@[simp]
theorem length_unravel : ∀ (shape : List Nat) (p : Nat), (unravel shape p).length = shape.length
  | [], _ => rfl
  | _ :: shape, p => congrArg (· + 1) (length_unravel shape p)

/-- Whole multiples of the size do not matter. -/
theorem unravel_add_mul (m p : Nat) : ∀ shape : List Nat,
    unravel shape (m * sizeOf shape + p) = unravel shape p
  | [] => rfl
  | n :: shape => by
    rw [unravel, unravel, sizeOf_cons, ← Nat.mul_assoc, unravel_add_mul (m * n) p shape]
    by_cases h : sizeOf shape = 0
    · simp [h]
    · rw [Nat.add_comm, Nat.add_mul_div_right _ _ (Nat.pos_of_ne_zero h), Nat.add_mul_mod_self_right]

theorem unravel_mod (shape : List Nat) (p : Nat) :
    unravel shape (p % sizeOf shape) = unravel shape p := by
  conv => rhs; rw [← Nat.div_add_mod' p (sizeOf shape)]
  exact (unravel_add_mul ..).symm

theorem unravel_offset : ∀ {shape coords : List Nat}, Within shape coords →
    unravel shape (offset shape coords) = coords
  | [], [], _ => rfl
  | n :: shape, i :: coords, h => by
    have hlt := offset_lt h.2
    have hpos : 0 < sizeOf shape := Nat.zero_lt_of_lt hlt
    rw [unravel, offset_cons n i h.2.length_eq, unravel_add_mul, unravel_offset h.2, Nat.add_comm,
      Nat.add_mul_div_right _ _ hpos, Nat.div_eq_of_lt hlt, Nat.zero_add, Nat.mod_eq_of_lt h.1]

theorem within_unravel : ∀ {shape : List Nat} {p : Nat}, 0 < sizeOf shape →
    Within shape (unravel shape p)
  | [], _, _ => trivial
  | _ :: _, _, h => ⟨Nat.mod_lt _ (Nat.pos_of_mul_pos_right h),
      within_unravel (Nat.pos_of_mul_pos_left h)⟩

theorem offset_unravel : ∀ {shape : List Nat} {p : Nat}, p < sizeOf shape →
    offset shape (unravel shape p) = p
  | [], _, h => (Nat.lt_one_iff.1 h).symm
  | n :: shape, p, h => by
    have hpos : 0 < sizeOf shape := Nat.pos_of_mul_pos_left (Nat.zero_lt_of_lt h)
    rw [unravel, offset_cons _ _ (length_unravel ..), ← unravel_mod, offset_unravel (Nat.mod_lt _ hpos),
      Nat.mod_eq_of_lt ((Nat.div_lt_iff_lt_mul hpos).2 h), Nat.div_add_mod']

/-- Stepping from the coordinates of a position gives those of the next position, and tells whether
there is one. -/
theorem advance_unravel : ∀ {shape : List Nat} {p : Nat}, p < sizeOf shape →
    advance shape (unravel shape p) = (decide (p + 1 < sizeOf shape), unravel shape (p + 1))
  | [], p, h => by simp [advance, unravel]
  | n :: shape, p, h => by
    have hpos : 0 < sizeOf shape := Nat.pos_of_mul_pos_left (Nat.zero_lt_of_lt h)
    have hdiv : p / sizeOf shape < n := (Nat.div_lt_iff_lt_mul hpos).2 h
    have hp := Nat.div_add_mod' p (sizeOf shape)
    have hstep := advance_unravel (Nat.mod_lt p hpos)
    rw [unravel_mod] at hstep
    have hnext : unravel shape (p % sizeOf shape + 1) = unravel shape (p + 1) := by
      rw [← unravel_add_mul (p / sizeOf shape) (p % sizeOf shape + 1), ← Nat.add_assoc, hp]
    rw [unravel, unravel, advance, hstep, hnext, Nat.mod_eq_of_lt hdiv, sizeOf_cons]
    by_cases hrow : p % sizeOf shape + 1 < sizeOf shape
    · have hsame : (p + 1) / sizeOf shape = p / sizeOf shape := by
        rw [← hp, Nat.add_assoc, Nat.add_comm, Nat.add_mul_div_right _ _ hpos,
          Nat.div_eq_of_lt hrow, Nat.zero_add, hp]
      have hlt : p + 1 < n * sizeOf shape :=
        (Nat.div_lt_iff_lt_mul hpos).1 (hsame ▸ hdiv)
      simp [hrow, hlt, hsame, Nat.mod_eq_of_lt hdiv]
    · have hend : p % sizeOf shape + 1 = sizeOf shape :=
        Nat.le_antisymm (Nat.mod_lt p hpos) (Nat.le_of_not_lt hrow)
      have hp' : p + 1 = (p / sizeOf shape + 1) * sizeOf shape := by
        rw [Nat.add_mul, Nat.one_mul, ← hend, ← Nat.add_assoc, hend, hp]
      have hdiv' : (p + 1) / sizeOf shape = p / sizeOf shape + 1 := by
        rw [hp', Nat.mul_div_cancel _ hpos]
      have hiff : p + 1 < n * sizeOf shape ↔ p / sizeOf shape + 1 < n := by
        rw [← Nat.div_lt_iff_lt_mul hpos, hdiv']
      by_cases hmore : p / sizeOf shape + 1 < n
      · simp [hrow, hiff, hmore, hdiv', Nat.mod_eq_of_lt hmore]
      · have hlast : p / sizeOf shape + 1 = n := Nat.le_antisymm hdiv (Nat.le_of_not_lt hmore)
        simp [hrow, hiff, hdiv', hlast]

end Orthotope
