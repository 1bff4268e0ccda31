import Orthotope.Proofs.Cube.Rolls
import Orthotope.Proofs.Machine.Chain

/-!
# Sequences of rolls as they are computed

Shifts that are reduced are added in 64 bits. That cannot overflow on axes of at most 2^63 positions, or
in row-major order if there are at most so many positions in all (`Derivation.RollsSmall`): then a chain
of rolls is the same in every arithmetic (`ChainIn.iff_of_rolls`), and it has the normal form that
`Chain.rolls_normalize` describes (`ChainIn.rolls_in_normal_form`).

Beyond that bound a sum can overflow, and if results wrap around, two rolls in row-major order can
cancel out that are no whole turns (`ChainIn.flat_rolls_cancel_beyond_bound`).
-/

namespace Orthotope

open Arithmetic

variable {k : Kind} {m : Arithmetic} {c d : Cube k} {op : Derivation} {ops : List Derivation} {serial : Nat}

namespace Derivation

/-- An operation rolls a cube of the given shape, on circles of at most 2^63 positions. -/
def RollsSmall (shape : List Nat) : Derivation → Prop
  | roll _ | rollAxes .. => ∀ n ∈ shape, n ≤ 2 ^ 63
  | rollFlat _ => sizeOf shape ≤ 2 ^ 63
  | _ => False

theorem IsRoll.rollsSmall (h : op.IsRoll) {shape : List Nat} (hsmall : ∀ n ∈ shape, n ≤ 2 ^ 63) :
    op.RollsSmall shape := by
  cases op with
  | roll | rollAxes => exact hsmall
  | _ => exact h.elim

/-- A roll does not change the shape. -/
theorem RollsSmall.shape_eq {shape : List Nat} (h : op.RollsSmall shape) : op.shape shape = shape := by
  cases op with
  | roll | rollAxes | rollFlat => rfl
  | _ => exact h.elim

/-- Shifts on small circles do not overflow. -/
theorem RollsSmall.makeIn_eq (h : op.RollsSmall c.shape) (hfits : c.Fits) (hsized : c.Sized)
    (m : Arithmetic) (serial : Nat) : op.makeIn m serial c = op.make serial c := by
  cases op with
  | roll shifts => exact (hfits.makes_rollIn hsized shifts serial).agree.eq (.inr h)
  | rollAxes shifts axes => exact (hfits.makes_rollAxesIn hsized shifts axes serial).agree.eq (.inr h)
  | rollFlat shift => exact (hfits.makes_rollFlatIn hsized shift serial).agree.eq (.inr h)
  | _ => exact h.elim

/-- What a roll makes can be rolled further. -/
theorem RollsSmall.step (h : op.RollsSmall c.shape) (hfits : c.Fits) (hsized : c.Sized)
    (hmake : op.make serial c = .ok d) : d.Fits ∧ d.Sized ∧ d.shape = c.shape := by
  have hpresents := presents hfits op hmake
  have hchecked := (h.makeIn_eq hfits hsized .checked serial).trans hmake
  exact ⟨hpresents.fits, (makes_makeIn hfits hsized op serial).sized hsized d hchecked,
    hpresents.shape_eq.trans h.shape_eq⟩

end Derivation

namespace ChainIn

/-- A chain of rolls on small circles is the same in every arithmetic. -/
theorem iff_of_rolls (hfits : c.Fits) (hsized : c.Sized) (hops : ∀ op ∈ ops, op.RollsSmall c.shape) :
    ChainIn m c ops d ↔ Chain c ops d := by
  constructor
  · intro h
    induction h with
    | nil => exact .nil
    | cons first _ ih =>
      obtain ⟨hop, hrest⟩ := List.forall_mem_cons.1 hops
      rw [hop.makeIn_eq hfits hsized] at first
      obtain ⟨hfits', hsized', hshape⟩ := hop.step hfits hsized first
      exact .cons first (ih hfits' hsized' (hshape ▸ hrest))
  · intro h
    induction h with
    | nil => exact .nil
    | cons first _ ih =>
      obtain ⟨hop, hrest⟩ := List.forall_mem_cons.1 hops
      obtain ⟨hfits', hsized', hshape⟩ := hop.step hfits hsized first
      exact .cons ((hop.makeIn_eq hfits hsized m _).trans first) (ih hfits' hsized' (hshape ▸ hrest))

/-- A sequence of rolls of axes with at most 2^63 positions leaves the first cube or one view directly
over it, and only the sums of the shifts decide which. So the calls may be made in any order, each with
its pairs in any order. The same goes for a sequence of rolls in row-major order, if the cube has at
most 2^63 positions. All of it holds in every arithmetic. -/
theorem rolls_in_normal_form (hfits : c.Fits) (hsized : c.Sized) (m : Arithmetic) :
    (¬ c.IsRolled → (∀ n ∈ c.shape, n ≤ 2 ^ 63) → ∀ ops d, (∀ op ∈ ops, op.IsRoll) → ChainIn m c ops d →
      d.RolledBy c (totalShift ops) ∧ ∀ ops', Rearranged ops ops' →
        ∃ d', ChainIn m c ops' d' ∧ d'.RolledBy c (totalShift ops)) ∧
    (¬ c.IsFlatRolled → c.size ≤ 2 ^ 63 → ∀ (shifts : List Int) d, ChainIn m c (shifts.map .rollFlat) d →
      d.FlatRolledBy c shifts.sum ∧ ∀ shifts', shifts.Perm shifts' →
        ∃ d', ChainIn m c (shifts'.map .rollFlat) d' ∧ d'.FlatRolledBy c shifts.sum) := by
  obtain ⟨haxes, hflat⟩ := Chain.rolls_normalize c
  constructor
  · intro hc hsmall ops d hops hchain
    have hiff {ops : List Derivation} {d : Cube k} (hops : ∀ op ∈ ops, op.IsRoll) :
        ChainIn m c ops d ↔ Chain c ops d :=
      iff_of_rolls hfits hsized fun op hop => (hops op hop).rollsSmall hsmall
    obtain ⟨hd, hothers⟩ := haxes hc ops d hops ((hiff hops).1 hchain)
    refine ⟨hd, fun ops' hops' => ?_⟩
    obtain ⟨d', hchain', hd'⟩ := hothers ops' hops'
    exact ⟨d', (hiff (hops'.forall_mem Derivation.Reordered.isRoll hops)).2 hchain', hd'⟩
  · intro hc hsmall shifts d hchain
    have hiff {shifts : List Int} {d : Cube k} :
        ChainIn m c (shifts.map .rollFlat) d ↔ Chain c (shifts.map .rollFlat) d := by
      refine iff_of_rolls hfits hsized fun op hop => ?_
      obtain ⟨shift, -, rfl⟩ := List.mem_map.1 hop
      exact hsmall
    obtain ⟨hd, hothers⟩ := hflat hc shifts d (hiff.1 hchain)
    refine ⟨hd, fun shifts' hperm => ?_⟩
    obtain ⟨d', hchain', hd'⟩ := hothers shifts' hperm
    exact ⟨d', hiff.2 hchain', hd'⟩

/-- Rolls of a cube with an empty axis cancel out, up to a turn backwards of the first axis. Two rolls
of twelve elements in row-major order are one by a single position. -/
theorem rolls_in_normal_form_over_turns :
    let c : Cube .i32 := .leaf .i32 0 [.ofLength 3, .ofLength 4, .ofLength 0]
    let e : Cube .i32 := .leaf .i32 1 [.ofLength 3, .ofLength 4]
    c.RolledBy c (totalShift [.roll [-4, 7, 5], .rollAxes [-7, 1] [1, 0]]) ∧
      (Cube.view 0 e e.dims (.flatRolled 1)).FlatRolledBy e [-23, 48].sum := by
  intro c e
  have hleaf : ¬ c.IsRolled := by simp [Cube.IsRolled, c]
  have hflat : ¬ e.IsFlatRolled := by simp [Cube.IsFlatRolled, e]
  let rolled : Cube .i32 := .view 0 c c.dims (.rolled [2, 3, 0])
  have hroll : (Derivation.roll [-4, 7, 5]).makeIn .wrapping 0 c = .ok rolled := by cbv
  have hback : (Derivation.rollAxes [-7, 1] [1, 0]).makeIn .wrapping 1 rolled = .ok c := by cbv
  have haxes : ChainIn .wrapping c [.roll [-4, 7, 5], .rollAxes [-7, 1] [1, 0]] c :=
    .cons hroll (.cons hback .nil)
  let one : Cube .i32 := .view 0 e e.dims (.flatRolled 1)
  have hone : (Derivation.rollFlat (-23)).makeIn .wrapping 0 e = .ok one := by cbv
  have htwo : (Derivation.rollFlat 48).makeIn .wrapping 1 one = .ok one := by cbv
  have hcircle : ChainIn .wrapping e ([-23, 48].map .rollFlat) one := .cons hone (.cons htwo .nil)
  have hc : c.Fits ∧ c.Sized := ⟨trivial, (by decide : Measured [3, 4, 0])⟩
  have he : e.Fits ∧ e.Sized := ⟨trivial, (by decide : Measured [3, 4])⟩
  refine ⟨((rolls_in_normal_form hc.1 hc.2 .wrapping).1 hleaf (by decide) _ c ?_ haxes).1,
    ((rolls_in_normal_form he.1 he.2 .wrapping).2 hflat (by decide) [-23, 48] _ hcircle).1⟩
  simp [Derivation.IsRoll]

/-- Rolls of 3 * 2^62 elements back by 2^62 each come to 2^63 in all, which is no whole turn. If the sum
of the reduced shifts wraps around, the second roll gives the cube beneath. If it is checked, the second
roll overflows. -/
theorem flat_rolls_cancel_beyond_bound :
    let leaf : Cube .i32 := .leaf .i32 0 [.ofLength (2 ^ 62), .ofLength 3]
    let once : Cube .i32 := .view 0 leaf leaf.dims (.flatRolled (2 ^ 63))
    leaf.Sized ∧ (∀ n ∈ leaf.shape, n ≤ 2 ^ 63) ∧ ChainIn .checked leaf [.rollFlat (-2 ^ 62)] once ∧
      ChainIn .wrapping leaf [.rollFlat (-2 ^ 62), .rollFlat (-2 ^ 62)] leaf ∧
      ¬ leaf.FlatRolledBy leaf [-2 ^ 62, -2 ^ 62].sum ∧
      (Derivation.rollFlat (-2 ^ 62)).makeIn .checked 1 once = .error (.misuse .overflow) := by
  intro leaf once
  have hsized : leaf.Sized := (by decide : Measured [2 ^ 62, 3])
  have hfirst (m : Arithmetic) : (Derivation.rollFlat (-2 ^ 62)).makeIn m 0 leaf = .ok once := by
    cases m <;> cbv
  have hsecond : (Derivation.rollFlat (-2 ^ 62)).makeIn .wrapping 1 once = .ok leaf := by cbv
  have hover : (Derivation.rollFlat (-2 ^ 62)).makeIn .checked 1 once = .error (.misuse .overflow) := by
    cbv
  refine ⟨hsized, by decide, .cons (hfirst _) .nil, .cons (hfirst _) (.cons hsecond .nil), fun h => ?_, hover⟩
  obtain ⟨serial, heq⟩ := h.2 (by decide)
  simp [leaf] at heq

end ChainIn

end Orthotope
