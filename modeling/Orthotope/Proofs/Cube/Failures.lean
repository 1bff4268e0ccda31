import Orthotope.Proofs.Cube.Derivation

/-!
# Why operations fail

An operation is refused for the arguments that it is given: their number, an axis, a length, an index.
None fails for a misuse, which would be a step of it that cannot be done (`Derivation.noMisuse_make`).
The steps of a slice that could be refused are those for its axes, and a cube that fits has them all
(`Cube.presents_slice`).
-/

namespace Orthotope

/-- A computation fails, if it does, for a reason that is not a misuse. -/
def NoMisuse {α : Type} (x : Except Error α) : Prop := ∀ cause, x ≠ .error (.misuse cause)

section
variable {α β : Type} {x : Except Error α}

theorem NoMisuse.bind {f : α → Except Error β} (h : NoMisuse x) (hf : ∀ y, x = .ok y → NoMisuse (f y)) :
    NoMisuse (x >>= f) := by
  cases x with
  | ok y => exact hf y rfl
  | error e => exact fun cause heq => h cause (congrArg Except.error (Except.error.inj heq))

theorem noMisuse_ok (y : α) : NoMisuse (.ok y) := by
  intro cause heq
  cases heq

theorem noMisuse_error {e : Error} (h : ∀ cause, e ≠ .misuse cause) :
    NoMisuse (.error e : Except Error α) :=
  fun cause heq => h cause (Except.error.inj heq)

end

/-! ## Arguments -/

theorem noMisuse_spreadShifts (rank : Nat) (seen : List Nat) (all : List Int)
    (pairs : List (Int × Nat)) : NoMisuse (spreadShifts rank seen all pairs) := by
  induction pairs generalizing seen all with
  | nil => exact noMisuse_ok _
  | cons pair pairs ih =>
    unfold spreadShifts
    split
    · exact noMisuse_error (by simp)
    · split
      · exact noMisuse_error (by simp)
      · exact ih _ _

namespace Accessor

theorem noMisuse_bound? (n : Nat) (index : Int) : NoMisuse (bound? n index) := by
  unfold bound?
  split
  · split
    · exact noMisuse_ok _
    · exact noMisuse_error (by simp)
  · exact noMisuse_error (by simp)

theorem noMisuse_resolve (n : Nat) (a : Accessor) : NoMisuse (a.resolve n) := by
  cases a with
  | «at» index =>
    unfold resolve
    dsimp only
    split
    · split
      · exact noMisuse_ok _
      · exact noMisuse_error (by simp)
    · exact noMisuse_error (by simp)
  | range start stop step =>
    unfold resolve
    dsimp only
    split
    · exact noMisuse_error (by simp)
    · refine (noMisuse_bound? n start).bind fun first _ => ?_
      cases stop with
      | none => exact noMisuse_ok _
      | some stop => exact (noMisuse_bound? n stop).bind fun last _ => noMisuse_ok _

theorem noMisuse_resolveAll (shape : List Nat) (accessors : List Accessor) :
    NoMisuse (resolveAll shape accessors) := by
  induction shape generalizing accessors with
  | nil => exact noMisuse_ok _
  | cons n shape ih =>
    cases accessors with
    | nil => exact (ih []).bind fun _ _ => noMisuse_ok _
    | cons a accessors =>
      exact (noMisuse_resolve n a).bind fun _ _ => (ih accessors).bind fun _ _ => noMisuse_ok _

end Accessor

/-! ## Operations -/

variable {k : Kind} {c : Cube k} {serial : Nat}

namespace Cube

theorem noMisuse_roll (shifts : List Int) : NoMisuse (c.roll serial shifts) := by
  unfold roll
  split
  · exact noMisuse_ok _
  · exact noMisuse_error (by simp)

theorem noMisuse_rollAxes (shifts : List Int) (axes : List Nat) :
    NoMisuse (c.rollAxes serial shifts axes) := by
  unfold rollAxes
  split
  · exact noMisuse_error (by simp)
  · exact NoMisuse.bind (noMisuse_spreadShifts _ _ _ _) fun all _ => noMisuse_roll all

theorem noMisuse_slice (h : c.Fits) (accessors : List Accessor) :
    NoMisuse (c.slice serial accessors) := by
  rcases Nat.lt_or_ge c.rank accessors.length with hrank | hrank
  · rw [slice, if_pos hrank]
    exact noMisuse_error (by simp)
  cases haxes : Accessor.resolveAll c.shape accessors with
  | error e =>
    rw [slice, if_neg (Nat.not_lt.2 hrank), haxes]
    exact fun cause heq => Accessor.noMisuse_resolveAll _ _ cause (haxes.trans (congrArg Except.error
      (Except.error.inj heq)))
  | ok axes =>
    obtain ⟨d, hd, -⟩ := presents_slice serial h hrank haxes
    rw [hd]
    exact noMisuse_ok d

theorem noMisuse_mask (marks : BitSet) : NoMisuse (c.mask serial marks) := by
  unfold mask
  split
  · exact noMisuse_error (by simp)
  · split
    · exact noMisuse_error (by simp)
    · split
      · exact noMisuse_ok _
      · dsimp only
        split <;> exact noMisuse_ok _

theorem noMisuse_reshape (shape : List Nat) : NoMisuse (c.reshape serial shape) := by
  unfold reshape
  split
  · exact noMisuse_error (by simp)
  · split
    · exact noMisuse_ok _
    · dsimp only
      split <;> split <;> exact noMisuse_ok _

end Cube

/-- An operation on a cube that fits does not fail for a misuse. -/
theorem Derivation.noMisuse_make (h : c.Fits) (op : Derivation) : NoMisuse (op.make serial c) := by
  cases op with
  | transpose | rollFlat => exact noMisuse_ok _
  | roll shifts => exact Cube.noMisuse_roll shifts
  | rollAxes shifts axes => exact Cube.noMisuse_rollAxes shifts axes
  | slice accessors => exact Cube.noMisuse_slice h accessors
  | mask marks canonical => exact Cube.noMisuse_mask marks
  | reshape shape => exact Cube.noMisuse_reshape shape

end Orthotope
