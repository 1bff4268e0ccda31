import Orthotope.Proofs.Binary.Order
import Orthotope.Proofs.Channel.Readable

/-!
# Extrema

`Channel.Extreme` says what the extreme of some numbers is: nothing if there are none; no number if one of
them is none; and otherwise one of the numbers, to which no other is preferred. One more number keeps that
(`Channel.Extreme.pick`), so that it holds of what is picked from all numbers in turn
(`Channel.extreme_foldl`), if what is preferred goes by an order (`Channel.Follows`), as the smaller and
the larger of two numbers do.

An extremum of a channel is found block by block. What is picked does not depend on the blocks
(`Channel.Gives.foldSpans`), since it is picked from the elements one by one: it is the extreme of the
elements, whichever way they are cut into spans (`Channel.Gives.extremumAlong`).
-/

namespace Orthotope.Channel

variable {σ α β : Type} {I : σ → Prop}

/-! ## Picking numbers -/

/-- The extreme of the first `n` of some numbers. `before x y` says that `x` is no worse than `y`. -/
structure Extreme (before : Binary .double → Binary .double → Prop) (n : Nat)
    (number : Nat → Binary .double) (best : Option (Binary .double)) : Prop where
  none_iff : best = none ↔ n = 0
  isNaN_iff : ∀ {x}, best = some x → (x.isNaN = true ↔ ∃ p < n, (number p).isNaN = true)
  mem : ∀ {x}, best = some x → x.isNaN = false → ∃ p < n, number p = x
  first : ∀ {x}, best = some x → x.isNaN = false → ∀ p < n, before x (number p)

/-- What is preferred goes by an order, in which only equal values are no worse than each other. -/
structure Follows (better : Binary .double → Binary .double → Bool)
    (before : Binary .double → Binary .double → Prop) : Prop where
  trans : ∀ {x y z}, before x y → before y z → before x z
  value_eq : ∀ {x y}, before x y → before y x → x.value = y.value
  switch : ∀ {x y}, better x y = true → before y x
  keep : ∀ {x y}, better x y = false → before x y

section
variable {better : Binary .double → Binary .double → Bool}
  {before : Binary .double → Binary .double → Prop} {n : Nat} {number : Nat → Binary .double}
  {best : Option (Binary .double)}

theorem Follows.refl (h : Follows better before) (x : Binary .double) : before x x := by
  cases hx : better x x with
  | true => exact h.switch hx
  | false => exact h.keep hx

theorem isNaN_nan : (Binary.nan .double).isNaN = true := by decide

/-- The first number is the extreme of itself. -/
theorem extreme_one (hbetter : Follows better before) (number : Nat → Binary .double) :
    Extreme before 1 number (some (number 0)) where
  none_iff := by simp
  isNaN_iff := by
    rintro _ ⟨⟩
    simp
  mem := by
    rintro _ ⟨⟩ -
    exact ⟨0, Nat.one_pos, rfl⟩
  first := by
    rintro _ ⟨⟩ - p hp
    obtain rfl := Nat.lt_one_iff.1 hp
    exact hbetter.refl _

/-- The extreme is no number once one of the numbers is none. -/
theorem extreme_nan (h : ∃ p < n, (number p).isNaN = true) :
    Extreme before n number (some (.nan .double)) where
  none_iff := by
    obtain ⟨p, hp, -⟩ := h
    exact iff_of_false (Option.some_ne_none _) (Nat.ne_zero_of_lt hp)
  isNaN_iff := by
    rintro _ ⟨⟩
    exact iff_of_true isNaN_nan h
  mem := by
    rintro _ ⟨⟩ hx
    cases isNaN_nan.symm.trans hx
  first := by
    rintro _ ⟨⟩ hx
    cases isNaN_nan.symm.trans hx

/-- A number to which none is preferred is the extreme, if all are numbers. -/
theorem extreme_of_first {p : Nat} (hp : p < n) (hnumbers : ∀ q < n, (number q).isNaN = false)
    (hfirst : ∀ q < n, before (number p) (number q)) : Extreme before n number (some (number p)) where
  none_iff := iff_of_false (Option.some_ne_none _) (Nat.ne_zero_of_lt hp)
  isNaN_iff := by
    rintro _ ⟨⟩
    refine iff_of_false (Bool.eq_false_iff.1 (hnumbers p hp)) ?_
    rintro ⟨q, hq, hnan⟩
    exact Bool.eq_false_iff.1 (hnumbers q hq) hnan
  mem := by
    rintro _ ⟨⟩ -
    exact ⟨p, hp, rfl⟩
  first := by
    rintro _ ⟨⟩ -
    exact hfirst

/-- The extreme of some numbers and one more is picked from their extreme and that one. -/
theorem Extreme.pick (hbetter : Follows better before) (h : Extreme before n number best) :
    Extreme before (n + 1) number (pick better best (number n)) := by
  cases best with
  | none =>
    obtain rfl : n = 0 := h.none_iff.1 rfl
    exact extreme_one hbetter number
  | some a =>
    have hnan : (a.isNaN || (number n).isNaN) = true ↔ ∃ p < n + 1, (number p).isNaN = true := by
      rw [Bool.or_eq_true, h.isNaN_iff rfl, Nat.exists_lt_succ_right]
    dsimp only [Channel.pick]
    split
    · next hsome => exact extreme_nan (hnan.1 hsome)
    · next hnone =>
      have hnumbers : ∀ p < n + 1, (number p).isNaN = false := fun p hp =>
        Bool.eq_false_iff.2 fun hp' => hnone (hnan.2 ⟨p, hp, hp'⟩)
      have ha : a.isNaN = false := (Bool.or_eq_false_iff.1 (Bool.eq_false_iff.2 hnone)).1
      obtain ⟨q, hq, rfl⟩ := h.mem rfl ha
      cases hprefer : better (number q) (number n) with
      | true =>
        refine extreme_of_first (Nat.lt_succ_self n) hnumbers fun p hp => ?_
        rcases Nat.lt_succ_iff_lt_or_eq.1 hp with hlt | rfl
        · exact hbetter.trans (hbetter.switch hprefer) (h.first rfl ha p hlt)
        · exact hbetter.refl _
      | false =>
        refine extreme_of_first (Nat.lt_succ_of_lt hq) hnumbers fun p hp => ?_
        rcases Nat.lt_succ_iff_lt_or_eq.1 hp with hlt | rfl
        · exact h.first rfl ha p hlt
        · exact hbetter.keep hprefer

end

/-! ## Along spans -/

/-- Goes through the elements of some spans, one span after the other. -/
def foldSpans (c : Channel σ α) (spans : List Span) (f : β → List α → Act σ β) (start : β) : Act σ β :=
  spans.foldlM (fun acc s => do f acc (← c.readSpan s)) start

/-- Picks a number from the elements of some spans. -/
def extremumAlong (c : Channel σ α) (spans : List Span) (number : α → Binary .double)
    (better : Binary .double → Binary .double → Bool) : Act σ (Option (Binary .double)) :=
  c.foldSpans spans (fun best xs => return xs.foldl (fun best x => pick better best (number x)) best) none

variable {c : Channel σ α} {f : Nat → α}

/-- Going through the elements span by span is going through them one by one. -/
theorem Gives.foldSpans (h : c.Gives I (· < c.size) f) (g : β → α → β) {spans : List Span}
    (hspans : ∀ s ∈ spans, 0 < s.length ∧ s.start + s.length ≤ c.size) (start : β) :
    Act.Yields I (c.foldSpans spans (fun acc xs => return xs.foldl g acc) start)
      ((spans.flatMap fun s => List.range' s.start s.length).foldl (fun acc p => g acc (f p)) start) := by
  induction spans generalizing start with
  | nil => exact Act.Yields.pure start
  | cons s spans ih =>
    obtain ⟨⟨hpos, hle⟩, hspans⟩ := List.forall_mem_cons.1 hspans
    have hread := h.read hpos fun q _ hlt => Nat.lt_of_lt_of_le hlt hle
    have hspan : Act.Yields I (do return (← c.readSpan s).foldl g start)
        (((List.range' s.start s.length).map f).foldl g start) := hread.bind (Act.Yields.pure _)
    rw [List.foldl_map] at hspan
    rw [List.flatMap_cons, List.foldl_append]
    exact hspan.bind (ih hspans _)

/-- Wherever the spans end that all elements are cut into, what is found is picked from the elements in
turn. -/
theorem Gives.extremumAlong (h : c.Gives I (· < c.size) f) (number : α → Binary .double)
    (better : Binary .double → Binary .double → Bool) (reach : Nat → Nat → Nat) :
    Act.Yields I (c.extremumAlong (walk reach 0 c.size) number better)
      ((List.range c.size).foldl (fun best p => pick better best (number (f p))) none) := by
  have hspans : ∀ s ∈ walk reach 0 c.size, 0 < s.length ∧ s.start + s.length ≤ c.size := fun s hs =>
    ⟨length_pos_of_mem_walk hs, Nat.zero_add c.size ▸ le_of_mem_walk hs⟩
  have hyields := h.foldSpans (fun best x => pick better best (number x)) hspans none
  rwa [positions_walk, ← List.range_eq_range'] at hyields

end Orthotope.Channel
