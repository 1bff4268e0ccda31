import Orthotope.Proofs.Cube.Chain
import Orthotope.Proofs.Cube.Failures
import Orthotope.Proofs.Machine.Derive
import Orthotope.Store

/-!
# Chains of derivations as they are computed

`ChainIn` is a chain of operations of which each is done in a given arithmetic. What a checked chain
leads to, every arithmetic leads to, and numbers without a bound do as well: so it is what the steps say
(`ChainIn.of_checked`).

From a leaf, the coordinates of such a cube show those of the leaf that the steps name, and the
translation finds them unless it overflows (`ChainIn.shows_leaf`). The cube is well formed and safe to
use: a transfer or a further operation either does what is described or overflows, and nothing else can
go wrong (`ChainIn.safe`). Views of at most 2^63 positions over as many do not overflow.

Beyond that bound they do. If results wrap around, two rolls show an element that no step names
(`ChainIn.shows_other_beyond_bound`). The step of a slice of three elements can overflow as well
(`ChainIn.unsafe_step`).
-/

namespace Orthotope

open Arithmetic

variable {k : Kind}

/-- A list of operations leads from one cube to another in an arithmetic, each of them succeeding. -/
inductive ChainIn (m : Arithmetic) : Cube k → List Derivation → Cube k → Prop where
  | nil {c : Cube k} : ChainIn m c [] c
  | cons {c d e : Cube k} {serial : Nat} {op : Derivation} {ops : List Derivation}
      (first : op.makeIn m serial c = .ok d) (rest : ChainIn m d ops e) : ChainIn m c (op :: ops) e

namespace ChainIn

variable {c d : Cube k} {ops : List Derivation}

/-- A checked chain is one in any arithmetic, and what it leads to has sizes that fit. -/
theorem of_checked (h : ChainIn .checked c ops d) (hfits : c.Fits) (hsized : c.Sized) :
    Chain c ops d ∧ d.Sized ∧ ∀ m, ChainIn m c ops d := by
  induction h with
  | nil => exact ⟨.nil, hsized, fun m => .nil⟩
  | @cons _ _ _ serial op _ first _ ih =>
    have hmakes := Derivation.makes_makeIn hfits hsized op serial
    obtain ⟨hmake, hall⟩ := hmakes.agree.of_checked first
    obtain ⟨hrest, hd, hrests⟩ :=
      ih (Derivation.presents hfits _ hmake).fits (hmakes.sized hsized _ first)
    exact ⟨.cons hmake hrest, hd, fun m => .cons (hall m) (hrests m)⟩

section
variable {slot : Nat} {dims : List Dimension}

/-- A checked chain from a leaf leads to the cube that its steps describe, in every arithmetic. Each
coordinate shows those of the leaf that the steps name, which the translation finds unless it overflows.
Where the checked translation does not overflow, and in numbers without a bound everywhere, access
reaches that element of the leaf. -/
theorem shows_leaf (hleaf : Measured (shapeOf dims)) (h : ChainIn .checked (.leaf k slot dims) ops c) :
    (∀ m, ChainIn m (.leaf k slot dims) ops c) ∧
    c.shape = Derivation.shapes (shapeOf dims) ops ∧
    ∀ cs, Within c.shape cs →
      let p := offset c.shape cs
      let cs' := Derivation.places (shapeOf dims) ops cs
      let q := offset (shapeOf dims) cs'
      Within (shapeOf dims) cs' ∧
      Agree (∀ v ∈ c.stacked, v.Small) (fun m => c.originIn m p) (.ok q) ∧
      ∀ {σ : Type} (slots : (k : Kind) → Nat → List Nat → Access σ k.Elem) (m : Arithmetic),
        m = .unbounded ∨ c.originIn .checked p = .ok q →
          (c.accessIn m slots).SameAt (slots k slot (shapeOf dims)) p q := by
  obtain ⟨hchain, hsized, hall⟩ := h.of_checked trivial hleaf
  obtain ⟨hshape, hrefers⟩ := hchain.refers_to_leaf
  refine ⟨hall, hshape, fun cs hc => ?_⟩
  obtain ⟨hwithin, horigin, hsame⟩ := hrefers cs hc
  have hlt : offset c.shape cs < c.size := offset_lt hc
  refine ⟨hwithin, horigin ▸ hchain.fits.agree_originIn hsized hlt, fun slots m hm => ?_⟩
  rcases hm with rfl | hq
  · rw [hchain.fits.accessIn_eq fun v _ => .inl rfl]
    exact hsame slots
  · have hreach := hchain.fits.sameAt_originIn hsized hlt hq m slots
    rwa [hchain.base] at hreach

/-- Two rolls of a transposed cube become one view, and its first element is that of the leaf at row 1
and column 0. -/
theorem rolled_twice_shows_leaf :
    let leaf : Cube .i32 := .leaf .i32 0 [.ofLength 2, .ofLength 3]
    let turned : Cube .i32 := .view 0 leaf [.ofLength 3, .ofLength 2] .transposed
    let c : Cube .i32 := .view 2 turned turned.dims (.flatRolled 5)
    ChainIn .wrapping leaf [.transpose, .rollFlat 1, .rollFlat 4] c ∧ c.shape = [3, 2] ∧
      c.originIn .wrapping (offset [3, 2] [0, 0]) = .ok (offset [2, 3] [1, 0]) := by
  intro leaf turned c
  let once : Cube .i32 := .view 1 turned turned.dims (.flatRolled 1)
  have hturn : Derivation.transpose.makeIn .checked 0 leaf = .ok turned := rfl
  have hroll : (Derivation.rollFlat 1).makeIn .checked 1 turned = .ok once := by cbv
  have hagain : (Derivation.rollFlat 4).makeIn .checked 2 once = .ok c := by cbv
  have h : ChainIn .checked leaf [.transpose, .rollFlat 1, .rollFlat 4] c :=
    .cons hturn (.cons hroll (.cons hagain .nil))
  obtain ⟨hall, hshape, hshows⟩ := shows_leaf (by decide) h
  have hshape : c.shape = [3, 2] := hshape
  rw [hshape] at hshows
  have hagree := (hshows [0, 0] ⟨by decide, by decide, trivial⟩).2.1
  have hsmall : ∀ v ∈ c.stacked, v.Small := by decide
  exact ⟨hall .wrapping, hshape, hagree.eq (.inr hsmall)⟩

/-- On an axis of 3 * 2^62 positions, two rolls back by one each show position 2 at coordinate 0. If
results wrap around, they show position 2^62 + 2; if they are checked, the second roll overflows. After
one roll, the checked translation of a coordinate in the middle overflows. -/
theorem shows_other_beyond_bound :
    let leaf : Cube .i32 := .leaf .i32 0 [.ofLength (3 * 2 ^ 62)]
    let once : Cube .i32 := .view 0 leaf leaf.dims (.rolled [3 * 2 ^ 62 - 1])
    let twice : Cube .i32 := .view 1 leaf leaf.dims (.rolled [2 ^ 63 - 2])
    Measured leaf.shape ∧ Derivation.places leaf.shape [.roll [-1], .roll [-1]] [0] = [2] ∧
      ChainIn .wrapping leaf [.roll [-1], .roll [-1]] twice ∧
      twice.originIn .wrapping 0 = .ok (2 ^ 62 + 2) ∧
      ChainIn .checked leaf [.roll [-1]] once ∧
      (Derivation.roll [-1]).makeIn .checked 1 once = .error (.misuse .overflow) ∧
      once.originIn .checked (2 ^ 63) = .error (.misuse .overflow) := by
  intro leaf once twice
  have hfirst (m : Arithmetic) : (Derivation.roll [-1]).makeIn m 0 leaf = .ok once := by
    cases m <;> rfl
  have hsecond : (Derivation.roll [-1]).makeIn .wrapping 1 once = .ok twice := rfl
  exact ⟨by decide, rfl, .cons (hfirst _) (.cons hsecond .nil), rfl, .cons (hfirst _) .nil, rfl, rfl⟩

/-! ## Safety -/

/-- A cube that a checked chain from a leaf leads to is well formed: its shape is that of its axes, its
size is computed and stored, and each of its views fits. In a request in range every position, every
next run and the translation down to the leaf are found, unless they overflow, which small views do not:
no step is a misuse, a run advances and stays within the request, and a position of the leaf is within
its size. A further operation does what is described, unless it overflows, and does not fail for a
misuse by itself. -/
theorem safe (hleaf : Measured (shapeOf dims)) (h : ChainIn .checked (.leaf k slot dims) ops c) :
    (c.shape = c.dims.map Dimension.length ∧ c.Fits ∧
      ∀ m, sizeIn m c.shape = .ok c.shape.prod ∧ c.sizeIn m = c.shape.prod) ∧
    (∀ v ∈ c.stacked, ∀ p len done, p + len ≤ v.size → done < len →
      Agree v.Small (fun m => v.positionIn m v.size (p + done)) (.ok (v.position (p + done))) ∧
      ∃ r : View.Run, 0 < r.span.length ∧ done + r.span.length ≤ len ∧
        Agree v.Small (fun m => v.nextRun m v.size p len done) (.ok r)) ∧
    (∀ p < c.size, c.origin p < sizeOf (shapeOf dims) ∧
      Agree (∀ v ∈ c.stacked, v.Small) (fun m => c.originIn m p) (.ok (c.origin p))) ∧
    (∀ {σ : Type} (slots : (k : Kind) → Nat → List Nat → Access σ k.Elem) (m : Arithmetic),
      (∀ v ∈ c.stacked, m = .unbounded ∨ v.Small) → c.accessIn m slots = c.access slots) ∧
    ∀ (serial : Nat) (op : Derivation),
      Agree False (fun m => op.makeIn m serial c) (op.make serial c) ∧
      ∀ cause, op.make serial c ≠ .error (.misuse cause) := by
  obtain ⟨hchain, hsized, -⟩ := h.of_checked trivial hleaf
  have hfits := hchain.fits
  refine ⟨⟨rfl, hfits, fun m => ⟨hsized.measured.sizeIn_eq m, hsized.sizeIn_eq m⟩⟩,
    fun v hv p len done hle hdone => ?_, fun p hp => ?_, fun slots m hm => hfits.accessIn_eq hm slots,
    fun serial op => ⟨(Derivation.makes_makeIn hfits hsized op serial).agree,
      Derivation.noMisuse_make hfits op⟩⟩
  · have hview := hfits.of_mem_stacked hv
    have hp : p + done < v.size := by omega
    obtain ⟨hpos, hreach⟩ := hview.reach_bounds hp (Nat.sub_pos_of_lt hdone)
    have hend : done + v.reach (p + done) (len - done) ≤ len := by omega
    exact ⟨hview.agree_positionIn hp, ⟨v.position (p + done), done, v.reach (p + done) (len - done)⟩,
      hpos, hend, hview.agree_nextRun hle hdone⟩
  · have hlt := hfits.origin_lt hp
    rw [hchain.base] at hlt
    exact ⟨hlt, hfits.agree_originIn hsized hp⟩

/-- A cube that was sliced to nothing beyond the end of an axis is safe like any other. -/
theorem safe_empty_slice :
    let leaf : Cube .i32 := .leaf .i32 0 [.ofLength 5]
    ∃ c, ChainIn .checked leaf [.slice [.range 4 none 3], .slice [.range 1 none 1]] c ∧ c.shape = [0] ∧
      c.Fits ∧ c.accessIn .checked Store.access = c.access Store.access := by
  intro leaf
  let last : Cube .i32 := .view 0 leaf [⟨.masked "D[mask]" (.natural "D" 5) #[4]⟩] (.sliced [.range 4 3 1])
  let c : Cube .i32 := .view 1 leaf [⟨.masked "D[mask]" (.natural "D" 5) #[]⟩] (.sliced [.range 7 3 0])
  have hfirst : (Derivation.slice [.range 4 none 3]).makeIn .checked 0 leaf = .ok last := by cbv
  have hsecond : (Derivation.slice [.range 1 none 1]).makeIn .checked 1 last = .ok c := by cbv
  have h : ChainIn .checked leaf [.slice [.range 4 none 3], .slice [.range 1 none 1]] c :=
    .cons hfirst (.cons hsecond .nil)
  have hshape : c.shape = [0] := by cbv
  have hsmall : ∀ v ∈ c.stacked, v.Small := by
    rintro v hv
    rcases List.mem_cons.1 hv with rfl | hv
    · exact ⟨by cbv, by cbv⟩
    · cases hv
  obtain ⟨⟨-, hfits, -⟩, -, -, haccess, -⟩ := safe (by decide) h
  exact ⟨c, h, hshape, hfits, haccess Store.access .checked fun v hv => .inr (hsmall v hv)⟩

/-- On a rolled axis of more than 2^63 positions, the checked translation of a position in range
overflows. The step of a slice of three elements is multiplied by that of a second slice, which
overflows as well. If results wrap around, a cube of one element can be given a shape of more than 2^64,
as which it is not well formed. -/
theorem unsafe_step :
    let long : Cube .i32 := .leaf .i32 0 [.ofLength (3 * 2 ^ 62)]
    let leaf : Cube .i32 := .leaf .i32 0 [.ofLength 3]
    let one : Cube .i32 := .leaf .i32 1 [.ofLength 1]
    (∃ c, ChainIn .checked long [.roll [-1]] c ∧ 2 ^ 63 < c.size ∧
      c.originIn .checked (2 ^ 63) = .error (.misuse .overflow)) ∧
    (∃ c, ChainIn .checked leaf [.slice [.range 0 none (2 ^ 63 - 1)]] c ∧
      (Derivation.slice [.range 0 none 3]).makeIn .checked 1 c = .error (.misuse .overflow)) ∧
    ∃ c, ChainIn .wrapping one [.reshape [274177, 67280421310721]] c ∧ c.sizeIn .wrapping = 1 ∧
      c.shape.prod = 2 ^ 64 + 1 := by
  intro long leaf one
  let rolled : Cube .i32 := .view 0 long long.dims (.rolled [3 * 2 ^ 62 - 1])
  have hroll : (Derivation.roll [-1]).makeIn .checked 0 long = .ok rolled := rfl
  let c : Cube .i32 := .view 0 leaf [⟨.masked "D[mask]" (.natural "D" 3) #[0]⟩]
    (.sliced [.range 0 (2 ^ 63 - 1) 1])
  have hslice : (Derivation.slice [.range 0 none (2 ^ 63 - 1)]).makeIn .checked 0 leaf = .ok c := by cbv
  have hover : (Derivation.slice [.range 0 none 3]).makeIn .checked 1 c =
      .error (.misuse .overflow) := by cbv
  have hreshape (shape : List Nat) (hsize : sizeIn .wrapping shape = .ok 1) (hne : shape ≠ [1]) :
      (Derivation.reshape shape).makeIn .wrapping 0 one =
        .ok (.view 0 one (Dimension.ofShape shape) .reshaped) := by
    have hone : one.sizeIn .wrapping = 1 := storedSize_eq _ (by decide)
    show one.reshapeIn .wrapping 0 shape = _
    unfold Cube.reshapeIn
    simp only [hsize, hone]
    show (if shape = [1] then _ else if shape = [1] then _ else _) = _
    rw [if_neg hne, if_neg hne, Cube.newView, shapeOf_ofShape, hsize]
    rfl
  have hsize : sizeIn .wrapping [274177, 67280421310721] = .ok 1 := by rw [sizeIn_wrapping]; decide
  refine ⟨⟨rolled, .cons hroll .nil, by decide, rfl⟩, ⟨c, .cons hslice .nil, hover⟩,
    _, .cons (hreshape _ hsize (by decide)) .nil, ?_, ?_⟩
  · rw [Cube.sizeIn, Cube.shape, Cube.dims, shapeOf_ofShape, storedSize, hsize]
  · rw [Cube.shape, Cube.dims, shapeOf_ofShape]
    rfl

end

end ChainIn

end Orthotope
