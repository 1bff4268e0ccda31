import Mathlib.Algebra.BigOperators.Group.List.Basic
import Mathlib.Algebra.Ring.Int.Defs
import Orthotope.Proofs.Cube.Chain

/-!
# Sequences of rolls

Rolls of axes are folded into one view, which is dropped again when it comes to nothing. What a sequence
of them leaves is decided by the sum of the shifts that each axis was given (`totalShift`): if these are
whole turns of every axis, the cube that was rolled first, and otherwise one view directly over it, by
the remainders of the sums (`Cube.RolledBy`). Rolls in row-major order are alike, with one sum and one
circle (`Cube.FlatRolledBy`).

The sums are sums of integers, while a cube keeps shifts that were reduced before they were added. The
first section says that the two agree on one axis. A valid roll of any form rolls by the remainders of its own shifts (`Derivation.make_of_rolls`),
and from there `Cube.RolledBy.rollBy` is the step and `Chain.rolledBy` the run.
-/

namespace Orthotope

/-! ## One circle -/

theorem natCast_normalizeShift (s : Int) {n : Nat} (hn : n ≠ 0) :
    (normalizeShift s n : Int) = s % n := by
  rw [normalizeShift, if_neg hn]
  exact Int.toNat_of_nonneg (Int.emod_nonneg s (by omega))

/-- What is reduced to nothing is a number of whole turns. -/
theorem normalizeShift_eq_zero_iff {s : Int} {n : Nat} :
    normalizeShift s n = 0 ↔ (n ≠ 0 → (n : Int) ∣ s) := by
  by_cases hn : n = 0
  · simp [normalizeShift, hn]
  · rw [Int.dvd_iff_emod_eq_zero, ← natCast_normalizeShift s hn]
    simp [hn]

/-- Shifts may be reduced before they are added. -/
theorem addShifts_normalizeShift (s t : Int) (n : Nat) :
    addShifts (normalizeShift s n) (normalizeShift t n) n = normalizeShift (s + t) n := by
  by_cases hn : n = 0
  · simp [addShifts, normalizeShift, hn]
  have hs := (normalizeShift_fits s n).resolve_right fun h => hn h.1
  have ht := (normalizeShift_fits t n).resolve_right fun h => hn h.1
  have hsum : ((normalizeShift s n + normalizeShift t n : Nat) : Int) % n =
      (normalizeShift (s + t) n : Int) := by
    rw [natCast_normalizeShift _ hn, Int.natCast_add, natCast_normalizeShift _ hn,
      natCast_normalizeShift _ hn, ← Int.add_emod]
  rw [← Int.natCast_emod, Int.natCast_inj] at hsum
  rw [addShifts, if_neg hn, ← hsum]
  split
  · next hle => rw [Nat.mod_eq_sub_mod hle, Nat.mod_eq_of_lt (by omega)]
  · next hlt => rw [Nat.mod_eq_of_lt (by omega)]

theorem addShifts_zero {s n : Nat} (h : ShiftFits s n) : addShifts s 0 n = s := by
  rcases h with hlt | ⟨rfl, rfl⟩
  · rw [addShifts, if_neg (by omega), if_neg (by omega), Nat.add_zero]
  · rfl

theorem zero_addShifts {s n : Nat} (h : ShiftFits s n) : addShifts 0 s n = s := by
  rw [addShifts, Nat.zero_add, ← Nat.add_zero s]
  exact addShifts_zero h

/-! ## All axes -/

/-- The remainders of a total shift of each axis. An empty axis has none. -/
def remainders (shape : List Nat) (total : Nat → Int) : List Nat :=
  shape.mapIdx fun axis (n : Nat) => if n = 0 then 0 else (total axis % (n : Int)).toNat

/-- Each axis that is not empty is shifted by a number of whole turns. -/
def WholeTurns (shape : List Nat) (total : Nat → Int) : Prop :=
  ∀ (axis n : Nat), shape[axis]? = some n → n ≠ 0 → (n : Int) ∣ total axis

section
variable {shape : List Nat} {t u : Nat → Int}

theorem remainders_eq (shape : List Nat) (t : Nat → Int) :
    remainders shape t = shape.mapIdx fun axis n => normalizeShift (t axis) n := rfl

theorem getElem?_remainders (axis : Nat) :
    (remainders shape t)[axis]? = shape[axis]?.map (normalizeShift (t axis)) :=
  List.getElem?_mapIdx

theorem remainders_all_zero_iff : (remainders shape t).all (· = 0) = true ↔ WholeTurns shape t := by
  simp only [List.all_eq_true, decide_eq_true_eq, List.mem_iff_getElem?, getElem?_remainders]
  constructor
  · intro h axis n hn
    refine normalizeShift_eq_zero_iff.1 (h _ ⟨axis, ?_⟩)
    rw [hn, Option.map_some]
  · rintro h s ⟨axis, hs⟩
    obtain ⟨n, hn, rfl⟩ := Option.map_eq_some_iff.1 hs
    exact normalizeShift_eq_zero_iff.2 (h axis n hn)

theorem remainders_congr (h : ∀ axis < shape.length, t axis = u axis) :
    remainders shape t = remainders shape u := by
  refine List.ext_getElem? fun axis => ?_
  rw [getElem?_remainders, getElem?_remainders]
  rcases Nat.lt_or_ge axis shape.length with hlt | hge
  · rw [h axis hlt]
  · rw [List.getElem?_eq_none hge]
    rfl

/-- The remainders of one list of shifts are the shifts reduced. -/
theorem normalizeShifts_eq_remainders {shifts : List Int} (hlen : shifts.length = shape.length) :
    normalizeShifts shifts shape = remainders shape fun axis => shifts.getD axis 0 := by
  induction shape generalizing shifts with
  | nil => cases shifts <;> rfl
  | cons n shape ih =>
    cases shifts with
    | nil => cases hlen
    | cons s shifts =>
      rw [normalizeShifts, ih (Nat.succ.inj hlen), remainders_eq, remainders_eq, List.mapIdx_cons]
      rfl

theorem combineShifts_remainders :
    combineShifts (remainders shape t) (remainders shape u) shape =
      remainders shape fun axis => t axis + u axis := by
  simp only [remainders_eq]
  induction shape generalizing t u with
  | nil => rfl
  | cons n shape ih =>
    simp only [List.mapIdx_cons, combineShifts, addShifts_normalizeShift]
    rw [ih]

theorem WholeTurns.add_iff (hu : WholeTurns shape u) :
    WholeTurns shape (fun axis => t axis + u axis) ↔ WholeTurns shape t :=
  forall₂_congr fun axis n => forall₂_congr fun hn hne => Int.dvd_add_left (hu axis n hn hne)

theorem WholeTurns.remainders_add (hu : WholeTurns shape u) :
    remainders shape (fun axis => t axis + u axis) = remainders shape t := by
  refine List.ext_getElem? fun axis => ?_
  rw [getElem?_remainders, getElem?_remainders]
  cases hn : shape[axis]? with
  | none => rfl
  | some n =>
    have hzero : normalizeShift (u axis) n = 0 := normalizeShift_eq_zero_iff.2 (hu axis n hn)
    rw [Option.map_some, Option.map_some, ← addShifts_normalizeShift, hzero,
      addShifts_zero (normalizeShift_fits _ n)]

end

/-! ## Calls -/

namespace Derivation

/-- An operation is a roll of axes. -/
def IsRoll : Derivation → Prop
  | roll _ | rollAxes .. => True
  | _ => False

/-- An operation is a roll of axes with valid arguments for a cube with so many axes. -/
def Rolls (rank : Nat) : Derivation → Prop
  | roll shifts => shifts.length = rank
  | rollAxes shifts axes =>
    shifts.length = axes.length ∧ (∀ axis ∈ axes, axis < rank) ∧ axes.Nodup
  | _ => False

/-- The sum of the shifts that an operation gives to an axis. -/
def shiftOn (op : Derivation) (axis : Nat) : Int :=
  match op with
  | roll shifts => shifts.getD axis 0
  | rollAxes shifts axes => (((shifts.zip axes).filter fun pair => pair.2 = axis).map Prod.fst).sum
  | _ => 0

/-- Two operations are the same, up to the order of the pairs of a shift and an axis. -/
inductive Reordered : Derivation → Derivation → Prop where
  | same (op : Derivation) : Reordered op op
  | pairs {pairs pairs' : List (Int × Nat)} (perm : pairs.Perm pairs') :
    Reordered (rollAxes (pairs.map Prod.fst) (pairs.map Prod.snd))
      (rollAxes (pairs'.map Prod.fst) (pairs'.map Prod.snd))

end Derivation

/-- The sum of the shifts that some operations give to an axis. -/
def totalShift (ops : List Derivation) (axis : Nat) : Int := (ops.map (·.shiftOn axis)).sum

/-- Operations in another order, and each of them with its pairs in another order. -/
def Rearranged (ops ops' : List Derivation) : Prop :=
  ∃ mid, ops.Perm mid ∧ List.Forall₂ Derivation.Reordered mid ops'

namespace Derivation

/-- If an axis is given only one shift, the first one is the sum. -/
theorem shiftOf_eq_sum {pairs : List (Int × Nat)} (h : (pairs.map Prod.snd).Nodup) (axis : Nat) :
    shiftOf pairs axis = ((pairs.filter fun pair => pair.2 = axis).map Prod.fst).sum := by
  induction pairs with
  | nil => rfl
  | cons pair pairs ih =>
    obtain ⟨hfresh, hrest⟩ := List.nodup_cons.1 h
    by_cases haxis : pair.2 = axis
    · have hnone : (pairs.filter fun pair => pair.2 = axis) = [] := by
        refine List.filter_eq_nil_iff.2 fun other hother heq => hfresh ?_
        rw [haxis, ← of_decide_eq_true heq]
        exact List.mem_map_of_mem hother
      simp [shiftOf, haxis, hnone]
    · simpa [shiftOf, haxis] using ih hrest

theorem zip_map_pairs (pairs : List (Int × Nat)) :
    (pairs.map Prod.fst).zip (pairs.map Prod.snd) = pairs := by
  rw [← List.unzip_fst, ← List.unzip_snd, List.zip_unzip]

variable {op op' : Derivation}

theorem Reordered.shiftOn_eq (h : Reordered op op') (axis : Nat) :
    op.shiftOn axis = op'.shiftOn axis := by
  cases h with
  | same => rfl
  | pairs perm =>
    rw [shiftOn, shiftOn, zip_map_pairs, zip_map_pairs]
    exact ((perm.filter _).map _).sum_eq

theorem Rolls.isRoll {rank : Nat} (h : op.Rolls rank) : op.IsRoll := by
  cases op with
  | roll | rollAxes => trivial
  | _ => exact h.elim

theorem Reordered.isRoll (h : Reordered op op') (hop : op.IsRoll) : op'.IsRoll := by
  cases h with
  | same => exact hop
  | pairs => trivial

theorem Reordered.rolls {rank : Nat} (h : Reordered op op') (hop : op.Rolls rank) :
    op'.Rolls rank := by
  cases h with
  | same => exact hop
  | pairs perm =>
    obtain ⟨-, hlt, hnodup⟩ := hop
    have haxes := perm.map Prod.snd
    exact ⟨by simp, fun axis h => hlt axis (haxes.mem_iff.2 h), haxes.nodup_iff.1 hnodup⟩

end Derivation

section
variable {ops ops' : List Derivation}

theorem Rearranged.totalShift_eq (h : Rearranged ops ops') : totalShift ops = totalShift ops' := by
  obtain ⟨mid, hperm, hmid⟩ := h
  funext axis
  rw [totalShift, (hperm.map _).sum_eq, totalShift]
  refine congrArg List.sum ?_
  clear hperm
  induction hmid with
  | nil => rfl
  | cons h _ ih => rw [List.map_cons, List.map_cons, h.shiftOn_eq, ih]

/-- What reordered pairs do not change holds of all operations that are rearranged. -/
theorem Rearranged.forall_mem {P : Derivation → Prop} (h : Rearranged ops ops')
    (hreordered : ∀ {op op'}, Derivation.Reordered op op' → P op → P op') (hops : ∀ op ∈ ops, P op) :
    ∀ op ∈ ops', P op := by
  obtain ⟨mid, hperm, hmid⟩ := h
  have hops : ∀ op ∈ mid, P op := fun op hop => hops op (hperm.mem_iff.2 hop)
  clear hperm
  induction hmid with
  | nil => exact List.forall_mem_nil _
  | cons h _ ih =>
    obtain ⟨hfirst, hrest⟩ := List.forall_mem_cons.1 hops
    exact List.forall_mem_cons.2 ⟨hreordered h hfirst, ih hrest⟩

end

/-! ## What a call does -/

/-- The shifts of some axes can be spread just if each is an axis and none is given twice. -/
theorem spreadShifts_ok_iff {rank : Nat} {seen : List Nat} {pairs : List (Int × Nat)}
    {all : List Int} : (∃ all', spreadShifts rank seen all pairs = .ok all') ↔
      (∀ axis ∈ pairs.map Prod.snd, axis < rank ∧ axis ∉ seen) ∧ (pairs.map Prod.snd).Nodup := by
  induction pairs generalizing seen all with
  | nil => simp [spreadShifts]
  | cons pair pairs ih =>
    obtain ⟨s, a⟩ := pair
    unfold spreadShifts
    split
    · next hrank => simp [Nat.not_lt.2 hrank]
    split
    · next hseen => simp [hseen]
    next hrank hseen =>
    rw [ih, List.map_cons, List.forall_mem_cons, List.nodup_cons]
    simp only [List.mem_cons, not_or]
    constructor
    · rintro ⟨hlt, hnodup⟩
      exact ⟨⟨⟨Nat.lt_of_not_le hrank, hseen⟩, fun axis h => ⟨(hlt axis h).1, (hlt axis h).2.2⟩⟩,
        fun h => (hlt a h).2.1 rfl, hnodup⟩
    · rintro ⟨⟨-, hlt⟩, hfresh, hnodup⟩
      exact ⟨fun axis h => ⟨(hlt axis h).1, fun heq => hfresh (heq ▸ h), (hlt axis h).2⟩, hnodup⟩

namespace Derivation

variable {k : Kind} {c d : Cube k} {op : Derivation} {serial : Nat}

/-- A valid roll of any form rolls each axis by the remainder of the shifts given to it. -/
theorem make_of_rolls (h : op.Rolls c.rank) :
    op.make serial c = .ok (c.rollBy serial (remainders c.shape op.shiftOn)) := by
  have hrank : c.rank = c.shape.length := (List.length_map _).symm
  cases op with
  | roll shifts =>
    have hlen : shifts.length = c.rank := h
    rw [make, Cube.roll, if_pos hlen, normalizeShifts_eq_remainders (hlen.trans hrank)]
    rfl
  | rollAxes shifts axes =>
    obtain ⟨hlen, hlt, hnodup⟩ := h
    have haxes : (shifts.zip axes).map Prod.snd = axes := List.map_snd_zip (Nat.le_of_eq hlen.symm)
    obtain ⟨all, hall⟩ : ∃ all, spreadShifts c.rank [] (List.replicate c.rank 0) (shifts.zip axes) =
        .ok all := by
      refine spreadShifts_ok_iff.2 ?_
      rw [haxes]
      exact ⟨fun axis h => ⟨hlt axis h, List.not_mem_nil⟩, hnodup⟩
    have hmake : c.rollAxes serial shifts axes =
        .ok (c.rollBy serial (normalizeShifts all c.shape)) := by
      rw [Cube.rollAxes, if_neg (not_not_intro hlen), hall]
      exact if_pos (Cube.getD_spreadShifts List.length_replicate hall).1
    have hroll := Cube.roll_of_rollAxes hmake
    rw [Cube.roll, if_pos (by simp), normalizeShifts_eq_remainders (by simp [hrank])] at hroll
    rw [make, hmake, ← hroll]
    refine congrArg (Except.ok ∘ c.rollBy serial) (remainders_congr fun axis haxis => ?_)
    rw [shiftOn, ← shiftOf_eq_sum (haxes.symm ▸ hnodup)]
    simp [hrank, haxis]
  | _ => exact h.elim

/-- A roll that succeeds is valid. -/
theorem rolls_of_make (hop : op.IsRoll) (h : op.make serial c = .ok d) : op.Rolls c.rank := by
  cases op with
  | roll shifts =>
    rw [make, Cube.roll] at h
    split at h
    · assumption
    · cases h
  | rollAxes shifts axes =>
    rw [make, Cube.rollAxes] at h
    split at h
    · cases h
    next hlen =>
    have hlen : shifts.length = axes.length := Decidable.not_not.1 hlen
    obtain ⟨-, -, h⟩ := bind_eq_ok h
    obtain ⟨all, hall, -⟩ := bind_eq_ok h
    obtain ⟨hlt, hnodup⟩ := spreadShifts_ok_iff.1 ⟨all, hall⟩
    rw [List.map_snd_zip (Nat.le_of_eq hlen.symm)] at hlt hnodup
    exact ⟨hlen, fun axis h => (hlt axis h).1, hnodup⟩
  | _ => exact hop.elim

end Derivation

/-! ## What is left of a sequence of calls -/

namespace Cube

variable {k : Kind} {c d e : Cube k} {serial : Nat} {total more : Nat → Int}

/-- A cube is a view that rolls axes. -/
def IsRolled (c : Cube k) : Prop :=
  ∃ serial inner dims shifts, c = view serial inner dims (.rolled shifts)

/-- A cube is a view that rolls in row-major order. -/
def IsFlatRolled (c : Cube k) : Prop :=
  ∃ serial inner dims shift, c = view serial inner dims (.flatRolled shift)

/-- `d` is `c` itself if nothing changes, and otherwise one view directly over it. -/
def IsOneView (d c : Cube k) (nothing : Prop) (transform : Transform) : Prop :=
  (nothing → d = c) ∧ (¬ nothing → ∃ serial, d = view serial c c.dims transform)

/-- `d` is what is left of `c` if its axes are rolled by some totals. -/
def RolledBy (d c : Cube k) (total : Nat → Int) : Prop :=
  d.IsOneView c (WholeTurns c.shape total) (.rolled (remainders c.shape total))

/-- `d` is what is left of `c` if it is rolled by a total in row-major order. -/
def FlatRolledBy (d c : Cube k) (total : Int) : Prop :=
  d.IsOneView c (c.size ≠ 0 → (c.size : Int) ∣ total) (.flatRolled (total % c.size).toNat)

theorem IsOneView.dims_eq {nothing : Prop} {transform : Transform}
    (h : d.IsOneView c nothing transform) : d.dims = c.dims := by
  by_cases hn : nothing
  · rw [h.1 hn]
  · obtain ⟨serial, rfl⟩ := h.2 hn
    rfl

theorem IsOneView.rank_eq {nothing : Prop} {transform : Transform}
    (h : d.IsOneView c nothing transform) : d.rank = c.rank := congrArg List.length h.dims_eq

theorem RolledBy.rank_eq (h : d.RolledBy c total) : d.rank = c.rank := IsOneView.rank_eq h

/-- Rolling by nothing leaves a cube as it is. -/
theorem RolledBy.refl (c : Cube k) : c.RolledBy c fun _ => 0 :=
  ⟨fun _ => rfl, fun h => absurd (fun _ _ _ _ => Int.dvd_zero _) h⟩

theorem FlatRolledBy.refl (c : Cube k) : c.FlatRolledBy c 0 :=
  ⟨fun _ => rfl, fun h => absurd (fun _ => Int.dvd_zero _) h⟩

theorem rollBy_of_not_rolled {shifts : List Nat} (hc : ¬ c.IsRolled)
    (hne : ¬ shifts.all (· = 0) = true) :
    c.rollBy serial shifts = view serial c c.dims (.rolled shifts) := by
  rw [rollBy, if_neg hne]
  exact fun s inner dims current heq => hc ⟨s, inner, dims, current, heq⟩

/-- Rolling on adds to the totals, also where the view on top is changed or dropped. -/
theorem RolledBy.rollBy (hc : ¬ c.IsRolled) (h : d.RolledBy c total) :
    (d.rollBy serial (remainders d.shape more)).RolledBy c fun axis => total axis + more axis := by
  rw [show d.shape = c.shape from congrArg shapeOf h.dims_eq]
  by_cases hmore : WholeTurns c.shape more
  · unfold Cube.rollBy
    rw [if_pos (remainders_all_zero_iff.2 hmore), RolledBy, hmore.remainders_add, hmore.add_iff]
    exact h
  have hne := mt remainders_all_zero_iff.1 hmore
  by_cases hturns : WholeTurns c.shape total
  · obtain rfl := h.1 hturns
    have hsum : (fun axis => total axis + more axis) = fun axis => more axis + total axis :=
      funext fun axis => Int.add_comm _ _
    rw [hsum, RolledBy, hturns.remainders_add, hturns.add_iff]
    exact ⟨fun h => absurd h hmore, fun _ => ⟨serial, rollBy_of_not_rolled hc hne⟩⟩
  · obtain ⟨s, rfl⟩ := h.2 hturns
    rw [Cube.rollBy, if_neg hne]
    dsimp only
    rw [show shapeOf c.dims = c.shape from rfl, combineShifts_remainders]
    constructor
    · exact fun hsum => if_pos (remainders_all_zero_iff.2 hsum)
    · exact fun hsum => ⟨serial, if_neg (mt remainders_all_zero_iff.1 hsum)⟩

theorem flatRolledBy_iff {total : Int} : d.FlatRolledBy c total ↔
    d.IsOneView c (normalizeShift total c.size = 0) (.flatRolled (normalizeShift total c.size)) := by
  rw [FlatRolledBy, normalizeShift_eq_zero_iff]
  refine and_congr_right fun _ => forall_congr' fun hne => ?_
  rw [normalizeShift, if_neg fun hzero => hne fun h => absurd hzero h]

theorem rollFlat_of_not_flatRolled {shift : Int} (hc : ¬ c.IsFlatRolled)
    (hne : normalizeShift shift c.size ≠ 0) :
    c.rollFlat serial shift = view serial c c.dims (.flatRolled (normalizeShift shift c.size)) := by
  rw [rollFlat, if_neg hne]
  exact fun s inner dims current heq => hc ⟨s, inner, dims, current, heq⟩

/-- Rolling on in row-major order adds to the total. -/
theorem FlatRolledBy.rollFlat {total more : Int} (hc : ¬ c.IsFlatRolled)
    (h : d.FlatRolledBy c total) : (d.rollFlat serial more).FlatRolledBy c (total + more) := by
  rw [flatRolledBy_iff] at h ⊢
  have hsize : d.size = c.size := congrArg (fun dims => sizeOf (shapeOf dims)) h.dims_eq
  have hfits := normalizeShift_fits total c.size
  rw [← addShifts_normalizeShift]
  by_cases hmore : normalizeShift more c.size = 0
  · rw [hmore, addShifts_zero hfits]
    unfold Cube.rollFlat
    rw [hsize, if_pos hmore]
    exact h
  by_cases hturns : normalizeShift total c.size = 0
  · obtain rfl := h.1 hturns
    rw [hturns, zero_addShifts (normalizeShift_fits more _)]
    exact ⟨fun h => absurd h hmore, fun _ => ⟨serial, rollFlat_of_not_flatRolled hc hmore⟩⟩
  · obtain ⟨s, rfl⟩ := h.2 hturns
    rw [Cube.rollFlat, hsize, if_neg hmore]
    exact ⟨fun hsum => if_pos hsum, fun hsum => ⟨serial, if_neg hsum⟩⟩

end Cube

variable {k : Kind} {c d e : Cube k} {ops : List Derivation} {total : Nat → Int}

theorem totalShift_cons (op : Derivation) (ops : List Derivation) :
    totalShift (op :: ops) = fun axis => op.shiftOn axis + totalShift ops axis :=
  funext fun _ => List.sum_cons

/-- What is left of a sequence of rolls, from any cube that rolls of `c` have led to. -/
theorem Chain.rolledBy (h : Chain d ops e) (hc : ¬ c.IsRolled) (hd : d.RolledBy c total)
    (hops : ∀ op ∈ ops, op.IsRoll) : (∀ op ∈ ops, op.Rolls c.rank) ∧
      e.RolledBy c fun axis => total axis + totalShift ops axis := by
  induction h generalizing total with
  | nil => exact ⟨List.forall_mem_nil _, by simpa [totalShift] using hd⟩
  | cons first rest ih =>
    obtain ⟨hop, hops⟩ := List.forall_mem_cons.1 hops
    have hrolls := Derivation.rolls_of_make hop first
    obtain rfl := Except.ok.inj ((Derivation.make_of_rolls hrolls).symm.trans first)
    obtain ⟨hvalid, he⟩ := ih (hd.rollBy hc) hops
    refine ⟨List.forall_mem_cons.2 ⟨hd.rank_eq ▸ hrolls, hvalid⟩, ?_⟩
    rw [totalShift_cons]
    simpa only [Int.add_assoc] using he

/-- Rolls that are valid for a cube succeed one after the other. -/
theorem Chain.exists_of_rolls (hc : ¬ c.IsRolled) (hd : d.RolledBy c total)
    (hops : ∀ op ∈ ops, op.Rolls c.rank) : ∃ e, Chain d ops e := by
  induction ops generalizing d total with
  | nil => exact ⟨d, .nil⟩
  | cons op ops ih =>
    obtain ⟨hop, hops⟩ := List.forall_mem_cons.1 hops
    have hfirst : op.make 0 d = .ok _ := Derivation.make_of_rolls (hd.rank_eq ▸ hop)
    obtain ⟨e, hrest⟩ := ih (hd.rollBy hc) hops
    exact ⟨e, .cons hfirst hrest⟩

theorem Chain.flatRolledBy {shifts : List Int} {total : Int} (h : Chain d (shifts.map .rollFlat) e)
    (hc : ¬ c.IsFlatRolled) (hd : d.FlatRolledBy c total) :
    e.FlatRolledBy c (total + shifts.sum) := by
  induction shifts generalizing d total with
  | nil =>
    cases h
    simpa using hd
  | cons shift shifts ih =>
    cases h with
    | cons first rest =>
      obtain rfl := Except.ok.inj first
      rw [List.sum_cons, ← Int.add_assoc]
      exact ih rest (hd.rollFlat hc)

theorem Chain.exists_rollFlat (shifts : List Int) : ∃ e, Chain d (shifts.map .rollFlat) e := by
  induction shifts generalizing d with
  | nil => exact ⟨d, .nil⟩
  | cons shift shifts ih =>
    obtain ⟨e, hrest⟩ := ih (d := d.rollFlat 0 shift)
    exact ⟨e, .cons rfl hrest⟩

/-- A sequence of rolls of axes leaves the first cube or one view directly over it, and only the sums
of the shifts decide which. So the calls may be made in any order, each with its pairs in any order. The
same goes for a sequence of rolls in row-major order. -/
theorem Chain.rolls_normalize (c : Cube k) :
    (¬ c.IsRolled → ∀ ops d, (∀ op ∈ ops, op.IsRoll) → Chain c ops d →
      d.RolledBy c (totalShift ops) ∧ ∀ ops', Rearranged ops ops' →
        ∃ d', Chain c ops' d' ∧ d'.RolledBy c (totalShift ops)) ∧
    (¬ c.IsFlatRolled → ∀ (shifts : List Int) d, Chain c (shifts.map .rollFlat) d →
      d.FlatRolledBy c shifts.sum ∧ ∀ shifts', shifts.Perm shifts' →
        ∃ d', Chain c (shifts'.map .rollFlat) d' ∧ d'.FlatRolledBy c shifts.sum) := by
  constructor
  · intro hc ops d hops hchain
    obtain ⟨hvalid, hd⟩ := hchain.rolledBy hc (.refl c) hops
    simp only [Int.zero_add] at hd
    refine ⟨hd, fun ops' hops' => ?_⟩
    have hvalid' := hops'.forall_mem Derivation.Reordered.rolls hvalid
    obtain ⟨d', hchain'⟩ := Chain.exists_of_rolls hc (.refl c) hvalid'
    have hd' := (hchain'.rolledBy hc (.refl c) fun op hop => (hvalid' op hop).isRoll).2
    simp only [Int.zero_add, ← hops'.totalShift_eq] at hd'
    exact ⟨d', hchain', hd'⟩
  · intro hc shifts d hchain
    have hrun : ∀ {shifts : List Int} {d}, Chain c (shifts.map .rollFlat) d →
        d.FlatRolledBy c shifts.sum := by
      intro shifts d hchain
      simpa using hchain.flatRolledBy hc (.refl c)
    refine ⟨hrun hchain, fun shifts' hperm => ?_⟩
    obtain ⟨d', hchain'⟩ := Chain.exists_rollFlat (d := c) shifts'
    exact ⟨d', hchain', hperm.sum_eq ▸ hrun hchain'⟩

end Orthotope
