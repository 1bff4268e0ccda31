import Orthotope.Proofs.Cube.Visits

/-!
# Access as it is computed

`Cube.accessIn` is the access to a cube in a given arithmetic: positions and runs are computed step by
step, and a bulk transfer is the loop `View.visitRuns`. The size of each view is the one that it stores.

If every view fits and nothing overflows, that is the access that `Cube.access` describes
(`Cube.Fits.accessIn_eq`). It is so for a whole stack of small views, and in numbers without a bound.
For a single position it is enough that its translation down the stack, `Cube.originIn`, does not
overflow (`Cube.Fits.sameAt_originIn`).
-/

namespace Orthotope

open Arithmetic

variable {σ α : Type} {m : Arithmetic} {v : View} {k : Kind}

/-! ## Transfers -/

/-- What is done within the range is all that matters. -/
theorem readWithin_congr {size pos count : Nat} {body body' : Effect σ (Transfer α)}
    (h : pos + count ≤ size → body = body') :
    readWithin size pos count body = readWithin size pos count body' := by
  unfold readWithin checkRange
  split
  · next hok =>
    split at hok
    · next hle => exact h hle
    · cases hok
  · rfl

theorem writeWithin_congr {size pos count : Nat} {body body' : Act σ Unit}
    (h : pos + count ≤ size → body = body') :
    writeWithin size pos count body = writeWithin size pos count body' := by
  unfold writeWithin checkRange
  split
  · next hle => rw [h hle]
  · rfl

/-- What is done at a position within the size is all that matters. -/
theorem checkPos_bind_congr {size pos : Nat} {body body' : Act σ α} (h : pos < size → body = body') :
    (Act.ofExcept (checkPos size pos) >>= fun _ => body) =
      (Act.ofExcept (checkPos size pos) >>= fun _ => body') := by
  unfold checkPos
  split
  · next hlt => rw [h hlt]
  · rfl

attribute [ext] Channel Access

/-- If nothing overflows, a view is computed as it is described. -/
theorem Channel.throughIn_eq (c : Channel σ α) (hv : v.Fits) (hm : m = .unbounded ∨ v.Small)
    (logged : Bool) : c.throughIn m v v.size logged = c.through v logged := by
  apply Channel.ext
  · rfl
  · funext pos
    refine checkPos_bind_congr fun hlt => ?_
    rw [(hv.agree_positionIn hlt).eq hm]
    rfl
  · funext pos x
    refine checkPos_bind_congr fun hlt => ?_
    rw [(hv.agree_positionIn hlt).eq hm]
    rfl
  · funext pos count
    refine readWithin_congr fun hle => ?_
    rw [c.readVisits_visitRuns hv hm hle]
  · funext pos xs
    refine writeWithin_congr fun hle => ?_
    rw [c.visitRuns_writeRun hv hm hle]

theorem Access.throughIn_eq (a : Access σ α) (hv : v.Fits) (hm : m = .unbounded ∨ v.Small) :
    a.throughIn m v v.size = a.through v :=
  Access.ext (a.raw.throughIn_eq hv hm true) (a.nullable.throughIn_eq hv hm false) rfl

/-- A view reaches beneath what the position names that it computes. -/
theorem Access.sameAt_throughIn (a : Access σ α) {size p q : Nat} (hp : p < size)
    (hq : v.positionIn m size p = .ok q) : SameAt (a.throughIn m v size) a p q := by
  have hreach {β : Type} (body : Nat → Act σ β) :
      (Act.ofExcept (checkPos size p) >>= fun _ => Act.ofExcept (v.positionIn m size p) >>= body) =
        body q := by
    rw [checkPos, if_pos hp, hq]
    rfl
  exact ⟨hreach a.raw.get, fun x => hreach (a.raw.set · x), hreach a.nullable.get,
    fun x => hreach (a.nullable.set · x)⟩

/-! ## Stacks of layers -/

namespace Cube

variable {c : Cube k} {p q : Nat}

/-- The sizes of a cube and of all cubes beneath can be computed in 64 bits. -/
def Sized : {k : Kind} → Cube k → Prop
  | _, leaf _ _ dims => Measured (shapeOf dims)
  | _, view _ inner dims _ => inner.Sized ∧ Measured (shapeOf dims)
  | _, cast _ inner _ => inner.Sized

theorem Sized.measured (h : c.Sized) : Measured c.shape := by
  induction c with
  | leaf => exact h
  | view serial inner dims transform ih => exact h.2
  | cast serial inner target ih => exact ih h

theorem Sized.sizeIn_eq (h : c.Sized) (m : Arithmetic) : c.sizeIn m = c.size := h.measured.storedSize_eq m

/-- If every view fits and nothing overflows, access to a cube is computed as it is described. -/
theorem Fits.accessIn_eq (h : c.Fits) (hm : ∀ v ∈ c.stacked, m = .unbounded ∨ v.Small)
    (slots : (k : Kind) → Nat → List Nat → Access σ k.Elem) :
    c.accessIn m slots = c.access slots := by
  induction c with
  | leaf => rfl
  | view serial inner dims transform ih =>
    have htop := hm _ List.mem_cons_self
    have hsize : storedSize m (shapeOf dims) = sizeOf (shapeOf dims) := by
      rcases htop with rfl | hsmall
      · exact storedSize_unbounded _
      · exact storedSize_eq m (View.le_maxPosition hsmall.1)
    rw [accessIn, access, ih h.1 fun v hv => hm v (List.mem_cons_of_mem _ hv), hsize]
    exact Access.throughIn_eq _ h.2 htop
  | cast serial inner target ih => rw [accessIn, access, ih h hm]

/-- The position of the base that a position of a cube refers to, computed view by view. -/
def originIn (m : Arithmetic) : {k : Kind} → Cube k → Nat → Except Error Nat
  | _, view _ inner dims transform, p => do
    inner.originIn m (← (inner.viewOver dims transform).positionIn m (storedSize m (shapeOf dims)) p)
  | _, _, p => .ok p

/-- The origin of a position is found in any arithmetic, unless it overflows. -/
theorem Fits.agree_originIn (h : c.Fits) (hsized : c.Sized) (hp : p < c.size) :
    Agree (∀ v ∈ c.stacked, v.Small) (fun m => c.originIn m p) (.ok (c.origin p)) := by
  induction c generalizing p with
  | leaf | cast => exact .const _
  | view serial inner dims transform ih =>
    simp only [originIn, hsized.2.storedSize_eq]
    refine ((h.2.agree_positionIn hp).mono fun hsmall => ?_).andThen
      ((ih h.1 hsized.1 (h.2.position_lt hp)).mono fun hsmall v hv => ?_)
    · exact hsmall _ List.mem_cons_self
    · exact hsmall v (List.mem_cons_of_mem _ hv)

/-- Where a checked translation to the base comes to an end, all arithmetics reach what it finds. -/
theorem Fits.sameAt_originIn (h : c.Fits) (hsized : c.Sized) (hp : p < c.size)
    (hq : c.originIn .checked p = .ok q) (m : Arithmetic)
    (slots : (k : Kind) → Nat → List Nat → Access σ k.Elem) :
    (c.accessIn m slots).SameAt (c.base.accessIn m slots) p q := by
  induction c generalizing p with
  | leaf | cast =>
    obtain rfl := Except.ok.inj hq
    exact Access.SameAt.refl _ _
  | view serial inner dims transform ih =>
    rw [originIn, hsized.2.storedSize_eq] at hq
    rcases (h.2.agree_positionIn hp).others with ⟨hover, -⟩ | hall
    · have hover : (inner.viewOver dims transform).positionIn .checked (sizeOf (shapeOf dims)) p = _ :=
        hover
      rw [hover] at hq
      cases hq
    · have hhere (m : Arithmetic) :
        (inner.viewOver dims transform).positionIn m (sizeOf (shapeOf dims)) p = _ := hall m
      rw [hhere] at hq
      have hbeneath := ih h.1 hsized.1 (h.2.position_lt hp) hq
      rw [accessIn, hsized.2.storedSize_eq]
      exact (Access.sameAt_throughIn _ hp (hhere m)).trans hbeneath

end Cube

/-- The bulk transfers of a cube that is reached from a leaf come to what single accesses come to, also
as they are computed, with no step in their loops that is taken for granted. -/
theorem Layered.likeStepwise_accessIn {R : σ → σ → Prop} {k₀ : Kind} {slot : Nat} {dims : List Dimension}
    {c : Cube k} {slots : (k : Kind) → Nat → List Nat → Access σ k.Elem}
    (h : Layered (.leaf k₀ slot dims) c) (hother : c.same (.leaf k₀ slot dims) = false)
    (hleaf : (slots k₀ slot (shapeOf dims)).Uniform R (sizeOf (shapeOf dims)))
    (hm : ∀ v ∈ c.stacked, m = .unbounded ∨ v.Small) : (c.accessIn m slots).LikeStepwise R := by
  rw [h.fits_and_bottom.1.accessIn_eq hm]
  exact h.likeStepwise hother hleaf

end Orthotope
