import Orthotope.Layout.Lemmas
import Orthotope.Machine.Layout

/-!
# Computations that may overflow

A computation is written for any arithmetic, and it has a result that is described without one. The two
agree (`Arithmetic.Agree`) if numbers without a bound lead to that result, and every arithmetic does
unless the checked one overflows. A condition comes with it under which that cannot happen. Sums and
products agree with those of numbers if they fit (`Arithmetic.agree_keep`), and so does what is put
together from computations that agree (`Arithmetic.Agree.bind`).

A checked computation that comes to something is thus one that needs no more than 64 bits: it is done in
every arithmetic, and comes to what is described (`Arithmetic.Agree.of_checked`).
-/

namespace Orthotope

namespace Arithmetic

variable {m : Arithmetic} {α β : Type} {a b n : Nat} {fits : Prop}

theorem keep_eq (m : Arithmetic) (h : n ≤ maxPosition) : m.keep n = .ok n := by
  cases m with
  | unbounded => rfl
  | checked => exact if_pos h
  | wrapping => exact congrArg Except.ok (Nat.mod_eq_of_lt (Nat.lt_succ_of_le h))

/-- Computations that an arithmetic is left open in, and what they should come to. -/
structure Agree (fits : Prop) (f : Arithmetic → Except Error α) (x : Except Error α) : Prop where
  unbounded : f .unbounded = x
  others : (f .checked = .error (.misuse .overflow) ∧ ¬fits) ∨ ∀ m, f m = x

/-- Where it is sure that nothing overflows, all arithmetics are alike. -/
theorem Agree.eq {f : Arithmetic → Except Error α} {x : Except Error α} (h : Agree fits f x)
    (hm : m = .unbounded ∨ fits) : f m = x := by
  rcases hm with rfl | hfits
  · exact h.unbounded
  · exact h.others.resolve_left (fun hover => hover.2 hfits) m

/-- A checked computation that comes to something needs no more than 64 bits. -/
theorem Agree.of_checked {f : Arithmetic → Except Error α} {x : Except Error α} {a : α}
    (h : Agree fits f x) (hok : f .checked = .ok a) : x = .ok a ∧ ∀ m, f m = .ok a := by
  rcases h.others with ⟨hover, -⟩ | hall
  · rw [hover] at hok
    cases hok
  · have hx : x = .ok a := (hall .checked).symm.trans hok
    exact ⟨hx, fun m => (hall m).trans hx⟩

theorem Agree.mono {fits' : Prop} {f : Arithmetic → Except Error α} {x : Except Error α}
    (h : Agree fits f x) (himp : fits' → fits) : Agree fits' f x :=
  ⟨h.unbounded, h.others.imp_left fun hover => ⟨hover.1, hover.2 ∘ himp⟩⟩

/-- A computation in which there is no arithmetic. -/
theorem Agree.const (x : Except Error α) : Agree fits (fun _ => x) x := ⟨rfl, .inr fun _ => rfl⟩

theorem agree_keep (h : fits → n ≤ maxPosition) : Agree fits (fun m => m.keep n) (.ok n) := by
  refine ⟨rfl, ?_⟩
  rcases Nat.lt_or_ge maxPosition n with hbig | hle
  · exact .inl ⟨if_neg (Nat.not_le.2 hbig), fun hfits => Nat.not_le.2 hbig (h hfits)⟩
  · exact .inr fun m => keep_eq m hle

theorem agree_add (h : fits → a + b ≤ maxPosition) : Agree fits (fun m => m.add a b) (.ok (a + b)) :=
  agree_keep h

theorem agree_mul (h : fits → a * b ≤ maxPosition) : Agree fits (fun m => m.mul a b) (.ok (a * b)) :=
  agree_keep h

theorem sub_eq (m : Arithmetic) (h : b ≤ a) : m.sub a b = .ok (a - b) := if_pos h

theorem agree_sub (h : b ≤ a) : Agree fits (fun m => m.sub a b) (.ok (a - b)) :=
  ⟨sub_eq _ h, .inr fun m => sub_eq m h⟩

theorem Agree.bind {f : Arithmetic → Except Error α} {g : Arithmetic → α → Except Error β}
    {x : Except Error α} {y : α → Except Error β} (hf : Agree fits f x)
    (hg : ∀ a, x = .ok a → Agree fits (fun m => g m a) (y a)) :
    Agree fits (fun m => f m >>= g m) (x >>= y) := by
  cases x with
  | error e =>
    refine ⟨?_, hf.others.imp (And.imp_left fun hover => ?_) fun hall m => ?_⟩
    · rw [hf.unbounded]
      rfl
    · rw [hover]
      rfl
    · rw [hall]
      rfl
  | ok a =>
    have ha := hg a rfl
    refine ⟨?_, ?_⟩
    · rw [hf.unbounded]
      exact ha.unbounded
    · rcases hf.others with ⟨hover, hfits⟩ | hall
      · rw [hover]
        exact .inl ⟨rfl, hfits⟩
      · simp only [hall]
        exact ha.others

/-- What is done with the result of a computation. -/
theorem Agree.andThen {f : Arithmetic → Except Error α} {g : Arithmetic → α → Except Error β} {a : α}
    {y : Except Error β} (hf : Agree fits f (.ok a)) (hg : Agree fits (fun m => g m a) y) :
    Agree fits (fun m => f m >>= g m) y := by
  refine hf.bind (y := fun _ => y) fun a' ha => ?_
  cases ha
  exact hg

/-- A result that is put together from that of a computation. -/
theorem Agree.map {f : Arithmetic → Except Error α} {x : α} (hf : Agree fits f (.ok x)) (g : α → β) :
    Agree fits (fun m => f m >>= fun a => .ok (g a)) (.ok (g x)) :=
  hf.andThen (.const (.ok (g x)))

theorem Agree.foldlM {f : Arithmetic → β → α → Except Error β} {g : β → α → Except Error β}
    (h : ∀ b a, Agree fits (fun m => f m b a) (g b a)) (xs : List α) (b : β) :
    Agree fits (fun m => xs.foldlM (f m) b) (xs.foldlM g b) := by
  induction xs generalizing b with
  | nil => exact .const _
  | cons a xs ih => exact (h b a).bind fun b' _ => ih b'

end Arithmetic

open Arithmetic

variable {n : Nat} {shape coords : List Nat} {fits : Prop}

/-! ## Sizes -/

/-- A product is found factor by factor. If no factor is zero, no product on the way exceeds the last
one. -/
theorem agree_foldlM_mul (acc : Nat) {shape : List Nat}
    (hfits : fits → 0 < sizeOf shape ∧ acc * sizeOf shape ≤ maxPosition) :
    Agree fits (fun m => shape.foldlM m.mul acc) (.ok (acc * sizeOf shape)) := by
  induction shape generalizing acc with
  | nil =>
    rw [sizeOf_nil, Nat.mul_one]
    exact .const (.ok acc)
  | cons n shape ih =>
    rw [sizeOf_cons, ← Nat.mul_assoc] at hfits ⊢
    have hrest : fits → 0 < sizeOf shape := fun h => Nat.pos_of_mul_pos_left (hfits h).1
    have hfirst : fits → acc * n ≤ maxPosition := fun h =>
      Nat.le_trans (Nat.le_mul_of_pos_right _ (hrest h)) (hfits h).2
    exact (agree_mul hfirst).andThen (ih (acc * n) fun h => ⟨hrest h, (hfits h).2⟩)

/-- The size of a shape is found in any arithmetic, unless a product of its first lengths overflows.
Then the size does so too, or it is zero. -/
theorem agree_sizeIn (shape : List Nat) :
    Agree (0 < sizeOf shape ∧ sizeOf shape ≤ maxPosition) (fun m => sizeIn m shape)
      (.ok (sizeOf shape)) := by
  have h : Agree (0 < sizeOf shape ∧ sizeOf shape ≤ maxPosition) (fun m => sizeIn m shape)
      (.ok (1 * sizeOf shape)) :=
    agree_foldlM_mul 1 fun hfits => ⟨hfits.1, Nat.le_trans (Nat.le_of_eq (Nat.one_mul _)) hfits.2⟩
  rwa [Nat.one_mul] at h

/-- The size of a shape can be computed in 64 bits. -/
def Measured (shape : List Nat) : Prop := sizeIn .checked shape = .ok (sizeOf shape)

instance (shape : List Nat) : Decidable (Measured shape) :=
  decidable_of_iff ((sizeIn .checked shape).toOption = some (sizeOf shape)) (by
    unfold Measured
    cases sizeIn .checked shape <;> simp [Except.toOption])

theorem measured_of_sizeIn (h : sizeIn .checked shape = .ok n) : Measured shape := by
  obtain ⟨hn, -⟩ := (agree_sizeIn shape).of_checked h
  rw [Measured, h, hn]

/-- The size of a shape is found in any arithmetic, if it can be computed in 64 bits. -/
theorem agree_sizeIn_of_measured (shape : List Nat) :
    Agree (Measured shape) (fun m => sizeIn m shape) (.ok (sizeOf shape)) := by
  refine ⟨(agree_sizeIn shape).unbounded, (agree_sizeIn shape).others.imp_left fun hover =>
    ⟨hover.1, fun h => ?_⟩⟩
  rw [h] at hover
  cases hover.1

/-- A size that cannot be computed in 64 bits overflows. -/
theorem sizeIn_overflow (h : ¬Measured shape) : sizeIn .checked shape = .error (.misuse .overflow) := by
  rcases (agree_sizeIn shape).others with ⟨hover, -⟩ | hall
  · exact hover
  · exact absurd (hall .checked) h

theorem Measured.sizeIn_eq (h : Measured shape) (m : Arithmetic) : sizeIn m shape = .ok (sizeOf shape) :=
  ((agree_sizeIn shape).of_checked h).2 m

theorem Measured.storedSize_eq (h : Measured shape) (m : Arithmetic) :
    storedSize m shape = sizeOf shape := by
  rw [storedSize, h.sizeIn_eq m]

theorem storedSize_unbounded (shape : List Nat) : storedSize .unbounded shape = sizeOf shape := by
  rw [storedSize, (agree_sizeIn shape).unbounded]

/-- The size of a shape is found in an arithmetic: it can be computed in 64 bits, or there is no bound. -/
def Arithmetic.Measures (m : Arithmetic) (shape : List Nat) : Prop := m = .unbounded ∨ Measured shape

theorem Arithmetic.Measures.sizeIn_eq {m : Arithmetic} (h : m.Measures shape) :
    sizeIn m shape = .ok (sizeOf shape) := by
  rcases h with rfl | h
  · exact (agree_sizeIn shape).unbounded
  · exact h.sizeIn_eq m

theorem Arithmetic.Measures.storedSize_eq {m : Arithmetic} (h : m.Measures shape) :
    storedSize m shape = sizeOf shape := by
  rw [storedSize, h.sizeIn_eq]

theorem wrapping_foldlM_mul (acc : Nat) (shape : List Nat) :
    shape.foldlM Arithmetic.wrapping.mul (acc % (maxPosition + 1)) =
      .ok (acc * sizeOf shape % (maxPosition + 1)) := by
  induction shape generalizing acc with
  | nil =>
    rw [sizeOf_nil, Nat.mul_one]
    rfl
  | cons n shape ih =>
    rw [sizeOf_cons, ← Nat.mul_assoc, ← ih (acc * n), ← Nat.mod_mul_mod acc n]
    rfl

/-- A size that wraps around. -/
theorem sizeIn_wrapping (shape : List Nat) :
    sizeIn .wrapping shape = .ok (sizeOf shape % (maxPosition + 1)) := by
  have h := wrapping_foldlM_mul 1 shape
  rwa [Nat.one_mul] at h

/-- A size that is computed in 64 bits has no more. -/
theorem Measured.le (h : Measured shape) : sizeOf shape ≤ maxPosition := by
  have hsize := (h.sizeIn_eq .wrapping).symm.trans (sizeIn_wrapping shape)
  rw [Except.ok.inj hsize]
  exact Nat.le_of_lt_succ (Nat.mod_lt _ (Nat.succ_pos _))

/-- A size of at most 64 bits is stored as it is. -/
theorem storedSize_eq (m : Arithmetic) (hle : sizeOf shape ≤ maxPosition) :
    storedSize m shape = sizeOf shape := by
  rcases (agree_sizeIn shape).others with ⟨hover, hsize⟩ | hall
  · cases m with
    | unbounded => exact storedSize_unbounded shape
    | checked =>
      -- a product on the way does not fit, but a length after it is zero
      have hzero : sizeOf shape = 0 := Nat.eq_zero_of_not_pos fun hpos => hsize ⟨hpos, hle⟩
      rw [storedSize, hover, hzero]
    | wrapping => rw [storedSize, sizeIn_wrapping, Nat.mod_eq_of_lt (Nat.lt_succ_of_le hle)]
  · rw [storedSize, hall]

/-- No length exceeds the size of a shape that has positions. -/
theorem le_sizeOf_of_mem (hpos : 0 < sizeOf shape) (hn : n ∈ shape) : n ≤ sizeOf shape := by
  induction shape with
  | nil => cases hn
  | cons k shape ih =>
    rw [sizeOf_cons] at hpos ⊢
    have hk : 0 < k := Nat.pos_of_mul_pos_right hpos
    have hrest : 0 < sizeOf shape := Nat.pos_of_mul_pos_left hpos
    rcases List.mem_cons.1 hn with rfl | hn
    · exact Nat.le_mul_of_pos_right _ hrest
    · exact Nat.le_trans (ih hrest hn) (Nat.le_mul_of_pos_left _ hk)

/-! ## Positions -/

/-- The position along the first axes is no greater than the position. -/
theorem le_foldl_offset (acc : Nat) {shape coords : List Nat} (h : Within shape coords) :
    acc ≤ (shape.zip coords).foldl (fun acc axis => acc * axis.1 + axis.2) acc := by
  induction shape generalizing acc coords with
  | nil => exact Nat.le_refl acc
  | cons n shape ih =>
    cases coords with
    | nil => exact h.elim
    | cons i coords =>
      have hn : 0 < n := Nat.zero_lt_of_lt h.1
      calc acc ≤ acc * n := Nat.le_mul_of_pos_right _ hn
        _ ≤ acc * n + i := Nat.le_add_right ..
        _ ≤ _ := ih _ h.2

theorem agree_foldlM_offset (acc : Nat) {shape coords : List Nat}
    (hfits : fits → Within shape coords ∧
      (shape.zip coords).foldl (fun acc axis => acc * axis.1 + axis.2) acc ≤ maxPosition) :
    Agree fits
      (fun m => (shape.zip coords).foldlM (fun acc axis => do m.add (← m.mul acc axis.1) axis.2) acc)
      (.ok ((shape.zip coords).foldl (fun acc axis => acc * axis.1 + axis.2) acc)) := by
  induction shape generalizing acc coords with
  | nil => exact .const (.ok acc)
  | cons n shape ih =>
    cases coords with
    | nil => exact .const (.ok acc)
    | cons i coords =>
      have hsum : fits → acc * n + i ≤ maxPosition := fun h =>
        Nat.le_trans (le_foldl_offset _ (hfits h).1.2) (hfits h).2
      have hstep : Agree fits (fun m => do m.add (← m.mul acc n) i) (.ok (acc * n + i)) :=
        (agree_mul fun h => Nat.le_trans (Nat.le_add_right ..) (hsum h)).andThen (agree_add hsum)
      exact hstep.andThen (ih _ fun h => ⟨(hfits h).1.2, (hfits h).2⟩)

theorem agree_offsetIn (h : coords.length = shape.length)
    (hfits : fits → Within shape coords ∧ sizeOf shape ≤ maxPosition) :
    Agree fits (fun m => offsetIn m shape coords) (.ok (offset shape coords)) := by
  simp only [offsetIn, if_pos h]
  exact agree_foldlM_offset 0 fun h => ⟨(hfits h).1,
    Nat.le_trans (Nat.le_of_lt (offset_lt (hfits h).1)) (hfits h).2⟩

theorem agree_offsetFromIn (axis acc : Nat) (shape coords : List Nat) :
    Agree False (fun m => offsetFromIn m axis acc shape coords) (offsetFrom axis acc shape coords) := by
  induction shape generalizing axis acc coords with
  | nil => cases coords <;> exact .const _
  | cons n shape ih =>
    cases coords with
    | nil => exact .const _
    | cons i coords =>
      simp only [offsetFromIn, offsetFrom]
      by_cases hi : i < n
      · simp only [if_pos hi]
        exact (agree_mul False.elim).andThen ((agree_add False.elim).andThen (ih (axis + 1) _ coords))
      · simp only [if_neg hi]
        exact .const _

/-- Coordinates are found to lie in a shape, or not to, in any arithmetic, unless their position
overflows. -/
theorem agree_offsetIn? (shape coords : List Nat) :
    Agree False (fun m => offsetIn? m shape coords) (offset? shape coords) := by
  simp only [offsetIn?, offset?]
  split
  · exact agree_offsetFromIn 0 0 shape coords
  · exact .const _

/-! ## Coordinates -/

theorem unravelGuarded_eq {shape : List Nat} (h : 0 < sizeOf shape) (p : Nat) :
    unravelGuarded shape p = .ok (unravel shape p, p / sizeOf shape) := by
  induction shape with
  | nil => simp [unravelGuarded, unravel]
  | cons n shape ih =>
    have hn : n ≠ 0 := Nat.ne_of_gt (Nat.pos_of_mul_pos_right h)
    rw [unravelGuarded, ih (Nat.pos_of_mul_pos_left h)]
    show (if n = 0 then _ else _) = _
    rw [if_neg hn, unravel, sizeOf_cons, Nat.mul_comm, ← Nat.div_div_eq_div_mul]
    rfl

/-! ## Entries -/

theorem entryOf_eq {ps : Array Nat} {i : Nat} (h : i < ps.size) : entryOf ps i = .ok (ps.getD i 0) := by
  simp [entryOf, h]

theorem mapM_entryOf_eq {table : Array Nat} {ps : List Nat} (h : ∀ p ∈ ps, p < table.size) :
    ps.mapM (entryOf table) = .ok (ps.map fun p => table.getD p 0) := by
  induction ps with
  | nil => rfl
  | cons p ps ih =>
    rw [List.mapM_cons, entryOf_eq (h p List.mem_cons_self),
      ih fun q hq => h q (List.mem_cons_of_mem p hq)]
    rfl

theorem entry_concat (xs : List Nat) (x : Nat) : entry (xs ++ [x]) xs.length = .ok x := by
  simp [entry]

end Orthotope
