import Orthotope.Proofs.Channel.Stepwise
import Orthotope.Proofs.View.Contiguous

/-!
# Layers over a channel

A view and a conversion of a channel move many elements by moving many beneath: a view run by run, a
conversion block by block. If the channel beneath is uniform and the view fits it, both do as their
stepwise forms (`Channel.Uniform.through`, `Channel.Uniform.convert`), on every request whatever, and
also in what is written before a failure.

Both proofs follow the walk that splits the request. One span of it is one request beneath that is in
range and not empty; uniformity makes it single accesses beneath, and those are single accesses of
the layer (`Channel.itemsEach_through`, `Channel.itemsEach_convert`).
-/

namespace Orthotope

variable {σ α β : Type} {R : σ → σ → Prop}

namespace Channel

/-! ## Views -/

section
variable {v : View} {logged : Bool}

theorem get_through (c : Channel σ α) {pos : Nat} (h : pos < v.size) :
    (c.through v logged).get pos = c.get (v.position pos) := by
  show (Act.ofExcept (checkPos v.size pos) >>= fun _ => c.get (v.position pos)) = _
  rw [checkPos, if_pos h]
  rfl

theorem set_through (c : Channel σ α) {pos : Nat} (h : pos < v.size) (x : α) :
    (c.through v logged).set pos x = c.set (v.position pos) x := by
  show (Act.ofExcept (checkPos v.size pos) >>= fun _ => c.set (v.position pos) x) = _
  rw [checkPos, if_pos h]
  rfl

/-- Along a run, single reads of a view are single reads beneath. -/
theorem itemsEach_through (c : Channel σ α) {pos inner count : Nat} (hlt : pos + count ≤ v.size)
    (hrun : ∀ k, k < count → v.position (pos + k) = inner + k) :
    (c.through v logged).itemsEach pos count = c.itemsEach inner count := by
  induction count generalizing pos inner with
  | zero => rfl
  | succ count ih =>
    have hrest : ∀ k, k < count → v.position (pos + 1 + k) = inner + 1 + k := fun k hk => by
      have := hrun (k + 1) (by omega)
      rwa [Nat.add_comm k 1, ← Nat.add_assoc, ← Nat.add_assoc] at this
    have hhere : v.position pos = inner := hrun 0 (by omega)
    rw [itemsEach, itemsEach, ih (by omega) hrest, get_through c (by omega), hhere]

/-- Along a run, single writes to a view are single writes beneath. -/
theorem writeEach_through (c : Channel σ α) {pos inner : Nat} {xs : List α}
    (hlt : pos + xs.length ≤ v.size)
    (hrun : ∀ k, k < xs.length → v.position (pos + k) = inner + k) :
    (c.through v logged).writeEach pos xs = c.writeEach inner xs := by
  induction xs generalizing pos inner with
  | nil => rfl
  | cons x xs ih =>
    simp only [List.length_cons] at hlt hrun
    have hrest : ∀ k, k < xs.length → v.position (pos + 1 + k) = inner + 1 + k := fun k hk => by
      have := hrun (k + 1) (by omega)
      rwa [Nat.add_comm k 1, ← Nat.add_assoc, ← Nat.add_assoc] at this
    have hhere : v.position pos = inner := hrun 0 (by omega)
    rw [Channel.writeEach, Channel.writeEach, ih (by omega) hrest, set_through c (by omega), hhere]

theorem complete_readRuns_cons (c : Channel σ α) (r : View.Run) (rest : List View.Run) :
    Act.complete (c.readRuns (r :: rest)) =
      (do
        let xs ← c.readSpan ⟨r.inner, r.span.length⟩
        let ys ← Act.complete (c.readRuns rest)
        return xs ++ ys) := by
  apply ExceptT.ext
  rw [ExceptT.run_bind, readSpan_eq, readRuns, Act.complete, Act.complete, ExceptT.run_mk,
    ExceptT.run_mk, map_bind, bind_map_left]
  refine bind_congr fun t => ?_
  obtain ⟨items, result⟩ := t
  cases result with
  | error e => rfl
  | ok u =>
    show Transfer.whole <$> (c.readRuns rest >>= fun t => pure (Transfer.after items t)) =
      (Act.complete (c.readRuns rest) >>= fun ys => pure (items ++ ys)).run
    rw [ExceptT.run_bind, Act.complete, ExceptT.run_mk, map_bind, bind_map_left]
    refine bind_congr fun t => ?_
    obtain ⟨more, result⟩ := t
    cases result <;> rfl

/-- Reading run by run is reading one element of the view after the other. -/
theorem Uniform.alike_readRuns {c : Channel σ α} (hc : c.Uniform R) (hv : v.Fits)
    (hsize : c.size = sizeOf v.source) {pos left : Nat} (hle : pos + left ≤ v.size) :
    Act.Alike R (Act.complete (c.readRuns (v.runs pos left)))
      ((c.through v logged).itemsEach pos left) := by
  -- along the walk: the first run by uniformity beneath, the others by induction
  induction left using Nat.strongRecOn generalizing pos with
  | ind left ih =>
    by_cases hleft : left = 0
    · subst hleft
      rw [v.runs_zero]
      exact Act.Alike.pure []
    have hpos : 1 ≤ stride v.reach pos left := one_le_stride ..
    have hstride : stride v.reach pos left ≤ left := stride_le hleft
    have hsplit : left = stride v.reach pos left + (left - stride v.reach pos left) := by omega
    have hrun : (c.through v logged).itemsEach pos (stride v.reach pos left) =
        c.itemsEach (v.position pos) (stride v.reach pos left) :=
      itemsEach_through c (by omega) fun k hk => hv.position_stride (by omega) hk
    have hbeneath : v.position pos + stride v.reach pos left ≤ c.size := by
      rw [hsize]
      exact hv.stride_le hleft hle
    rw [v.runs_of_ne_zero pos hleft, complete_readRuns_cons]
    conv => enter [3]; rw [hsplit, itemsEach_add, hrun]
    refine (hc.readSpan hpos hbeneath).bind fun xs => ?_
    refine Act.Alike.bind (ih _ (by omega) (by omega)) fun ys => Act.Alike.pure _

/-- Writing run by run is writing one element of the view after the other. -/
theorem Uniform.alike_writeRuns {c : Channel σ α} (hc : c.Uniform R) (hv : v.Fits)
    (hsize : c.size = sizeOf v.source) {pos : Nat} {xs : List α}
    (hle : pos + xs.length ≤ v.size) :
    Act.Alike R (c.writeRuns (v.runs pos xs.length) xs)
      ((c.through v logged).writeEach pos xs) := by
  generalize hleft : xs.length = left at hle ⊢
  induction left using Nat.strongRecOn generalizing pos xs with
  | ind left ih =>
    by_cases hzero : left = 0
    · subst hzero
      obtain rfl := List.eq_nil_of_length_eq_zero hleft
      rw [v.runs_zero]
      exact Act.Alike.pure ()
    have hpos : 1 ≤ stride v.reach pos left := one_le_stride ..
    have hstride : stride v.reach pos left ≤ left := stride_le hzero
    have hlen : (xs.take (stride v.reach pos left)).length = stride v.reach pos left := by
      rw [List.length_take]
      omega
    have hrun : (c.through v logged).writeEach pos (xs.take (stride v.reach pos left)) =
        c.writeEach (v.position pos) (xs.take (stride v.reach pos left)) :=
      writeEach_through c (by omega) fun k hk => hv.position_stride (by omega) (hlen ▸ hk)
    have hbeneath : v.position pos + (xs.take (stride v.reach pos left)).length ≤ c.size := by
      rw [hsize, hlen]
      exact hv.stride_le hzero hle
    have hne : xs.take (stride v.reach pos left) ≠ [] := List.ne_nil_of_length_pos (by omega)
    rw [v.runs_of_ne_zero pos hzero,
      writeEach_take_drop _ pos xs (n := stride v.reach pos left) (by omega), hrun]
    refine (hc.writeEach hne hbeneath).bind fun _ => ?_
    exact ih _ (by omega) (by rw [List.length_drop, hleft]) (by omega)

/-- A report in front of a transfer does not change what it comes to. -/
theorem outcome_complete_note (event : Event) (body : Effect σ (Transfer α)) :
    (Act.complete (do
      if logged then Effect.note event
      body)).outcome = (Act.complete body).outcome := by
  cases logged <;> rfl

/-- A report in front of an act does not change what it comes to. -/
theorem outcome_note (event : Event) (body : Act σ α) :
    (do
      if logged then Act.ofEffect (Effect.note event)
      body : Act σ α).outcome = body.outcome := by
  cases logged <;> rfl

/-- A view that fits a uniform channel does as its stepwise form. -/
theorem Uniform.through {c : Channel σ α} (hc : c.Uniform R) (hv : v.Fits)
    (hsize : c.size = sizeOf v.source) : (c.through v logged).LikeStepwise R where
  read pos count := by
    refine alike_readWithin rfl fun hle => ?_
    exact (hc.alike_readRuns hv hsize hle).congr (outcome_complete_note ..) rfl
  write pos xs := by
    refine alike_writeWithin rfl fun hle => ?_
    exact (hc.alike_writeRuns hv hsize hle).congr (outcome_note ..) rfl

end

/-! ## Conversions -/

section
variable {into : β → α} {back : α → β} {log : Nat → Nat → List Event} {c : Channel σ β}

/-- Single reads of a conversion are single reads beneath, converted. -/
theorem itemsEach_convert (pos count : Nat) :
    (c.convert into back log).itemsEach pos count = List.map into <$> c.itemsEach pos count := by
  induction count generalizing pos with
  | zero => simp [itemsEach]
  | succ count ih =>
    have hget : (c.convert into back log).get pos = into <$> c.get pos := rfl
    simp [itemsEach, ih, hget]

/-- Single writes to a conversion are single writes beneath of converted elements. -/
theorem writeEach_convert (pos : Nat) (xs : List α) :
    (c.convert into back log).writeEach pos xs = c.writeEach pos (xs.map back) := by
  induction xs generalizing pos with
  | nil => rfl
  | cons x xs ih =>
    rw [Channel.writeEach, ih]
    rfl

theorem complete_readBlocks_cons (s : Span) (rest : List Span) :
    Act.complete (c.readBlocks into (s :: rest)) =
      (do
        let xs ← c.readSpan s
        let ys ← Act.complete (c.readBlocks into rest)
        return xs.map into ++ ys) := by
  rw [← Act.complete_after (c.readSpan s) (List.map into) (c.readBlocks into rest)]
  refine congrArg Act.complete (bind_congr fun xs => ?_)
  cases xs <;> rfl

/-- Reading block by block is reading one converted element after the other, wherever the blocks
end. -/
theorem Uniform.alike_readBlocks (hc : c.Uniform R) (reach : Nat → Nat → Nat) {pos left : Nat}
    (hle : pos + left ≤ c.size) :
    Act.Alike R (Act.complete (c.readBlocks into (walk reach pos left)))
      ((c.convert into back log).itemsEach pos left) := by
  induction left using Nat.strongRecOn generalizing pos with
  | ind left ih =>
    by_cases hleft : left = 0
    · subst hleft
      rw [walk_zero]
      exact Act.Alike.pure []
    have hpos : 1 ≤ stride reach pos left := one_le_stride ..
    have hstride : stride reach pos left ≤ left := stride_le hleft
    have hsplit : left = stride reach pos left + (left - stride reach pos left) := by omega
    have hend : pos + stride reach pos left + (left - stride reach pos left) ≤ c.size := by omega
    have hrest := ih (left - stride reach pos left) (by omega) hend
    rw [walk_of_ne_zero hleft, complete_readBlocks_cons]
    conv => enter [3]; rw [hsplit, itemsEach_add, itemsEach_convert, bind_map_left]
    refine (hc.readSpan hpos (by omega)).bind fun xs => ?_
    exact hrest.bind fun ys => Act.Alike.pure _

/-- Writing block by block is writing one converted element after the other, wherever the blocks
end. -/
theorem Uniform.alike_writeBlocks (hc : c.Uniform R) (reach : Nat → Nat → Nat) {pos : Nat}
    {xs : List α} (hle : pos + xs.length ≤ c.size) :
    Act.Alike R (c.writeBlocks back (walk reach pos xs.length) xs)
      ((c.convert into back log).writeEach pos xs) := by
  generalize hleft : xs.length = left at hle ⊢
  induction left using Nat.strongRecOn generalizing pos xs with
  | ind left ih =>
    by_cases hzero : left = 0
    · subst hzero
      obtain rfl := List.eq_nil_of_length_eq_zero hleft
      rw [walk_zero]
      exact Act.Alike.pure ()
    have hpos : 1 ≤ stride reach pos left := one_le_stride ..
    have hstride : stride reach pos left ≤ left := stride_le hzero
    have hlen : ((xs.take (stride reach pos left)).map back).length = stride reach pos left := by
      rw [List.length_map, List.length_take]
      omega
    have hbeneath : pos + ((xs.take (stride reach pos left)).map back).length ≤ c.size := by
      omega
    have hne : (xs.take (stride reach pos left)).map back ≠ [] :=
      List.ne_nil_of_length_pos (by omega)
    rw [walk_of_ne_zero hzero,
      writeEach_take_drop _ pos xs (n := stride reach pos left) (by omega), writeEach_convert]
    refine (hc.writeEach hne hbeneath).bind fun _ => ?_
    exact ih _ (by omega) (by rw [List.length_drop, hleft]) (by omega)

/-- Reports in front of a transfer do not change what it comes to. -/
theorem outcome_complete_notes (events : List Event) (body : Effect σ (Transfer α)) :
    (Act.complete (do
      events.forM Effect.note
      body)).outcome = (Act.complete body).outcome := by
  induction events with
  | nil => rfl
  | cons event events ih =>
    refine Eq.trans ?_ ih
    rfl

/-- A conversion of a uniform channel does as its stepwise form. -/
theorem Uniform.convert (hc : c.Uniform R) (into : β → α) (back : α → β)
    (log : Nat → Nat → List Event) : (c.convert into back log).LikeStepwise R where
  read pos count := by
    refine alike_readWithin rfl fun hle => ?_
    exact (hc.alike_readBlocks _ hle).congr (outcome_complete_notes ..) rfl
  write pos xs := alike_writeWithin rfl fun hle => hc.alike_writeBlocks _ hle

end

end Channel

end Orthotope
