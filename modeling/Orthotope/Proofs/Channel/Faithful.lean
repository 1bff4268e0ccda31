import Mathlib.Logic.Function.Basic
import Orthotope.Content
import Orthotope.Proofs.Channel.Stepwise

/-!
# Faithful channels

What some storage keeps is described by a relation `holds` between its states and functions from
positions to elements. A channel is `Channel.Faithful` to that description if, at every state that
holds something, reading gives what is held and leaves the state alone, and writing changes what is
held at the positions written and nowhere else. Requests in range never fail, and writes out of range
always do.

Bulk writes are described by `scatter`, which puts elements to places one after the other. The places
may be those of the channel itself or, for a view, positions beneath it
(`Channel.Faithful.writeEach_scatter`). A faithful channel is steady up to states that hold the same
(`Channel.Faithful.steady`).
-/

namespace Orthotope

variable {σ α : Type}

/-! ## Contents after writes -/

/-- The contents after elements were put, one after the other, to their places. -/
def scatter (place : Nat → Nat) (f : Nat → α) : List α → Nat → α
  | [] => f
  | x :: xs => scatter (fun i => place (i + 1)) (Function.update f (place 0) x) xs

variable {place : Nat → Nat} {f : Nat → α} {xs : List α}

/-- A place that is not written to keeps its element. -/
theorem scatter_of_ne {q : Nat} (h : ∀ i < xs.length, place i ≠ q) : scatter place f xs q = f q := by
  induction xs generalizing f place with
  | nil => rfl
  | cons x xs ih =>
    rw [scatter, ih fun i hi => h (i + 1) (Nat.succ_lt_succ hi)]
    exact Function.update_of_ne (h 0 (Nat.succ_pos _)).symm ..

/-- Each element is found at its place, if no two go to the same place. -/
theorem scatter_place {i : Nat} (hi : i < xs.length)
    (h : ∀ i < xs.length, ∀ j < xs.length, place i = place j → i = j) :
    scatter place f xs (place i) = xs[i] := by
  induction xs generalizing f place i with
  | nil => cases hi
  | cons x xs ih =>
    cases i with
    | zero =>
      rw [scatter, scatter_of_ne]
      · exact Function.update_self ..
      · intro j hj heq
        exact absurd (h (j + 1) (Nat.succ_lt_succ hj) 0 hi heq) (Nat.succ_ne_zero j)
    | succ i =>
      refine ih (Nat.lt_of_succ_lt_succ hi) fun i hi j hj heq => ?_
      exact Nat.succ.inj (h (i + 1) (Nat.succ_lt_succ hi) (j + 1) (Nat.succ_lt_succ hj) heq)

/-- Replaces one element after the other. -/
def replaceEach (replace : σ → Nat → α → σ) (s : σ) (pos : Nat) : List α → σ
  | [] => s
  | x :: xs => replaceEach replace (replace s pos x) (pos + 1) xs

theorem replaceEach_append (replace : σ → Nat → α → σ) (s : σ) (pos : Nat) (xs ys : List α) :
    replaceEach replace s pos (xs ++ ys) =
      replaceEach replace (replaceEach replace s pos xs) (pos + xs.length) ys := by
  induction xs generalizing s pos with
  | nil => rfl
  | cons x xs ih =>
    rw [List.cons_append, replaceEach, ih, replaceEach, List.length_cons, Nat.add_right_comm,
      Nat.add_assoc]

/-- Replacing elements one by one changes the contents one by one. -/
theorem replaceEach_holds {holds : σ → (Nat → α) → Prop} {replace : σ → Nat → α → σ} {size : Nat}
    (h : ∀ {s f p} x, holds s f → p < size → holds (replace s p x) (Function.update f p x))
    {s : σ} {pos : Nat} (hs : holds s f) (hle : pos + xs.length ≤ size) :
    holds (replaceEach replace s pos xs) (scatter (pos + ·) f xs) := by
  induction xs generalizing s f pos with
  | nil => exact hs
  | cons x xs ih =>
    have hlt : pos < size := Nat.lt_of_lt_of_le (Nat.lt_add_of_pos_right (Nat.succ_pos _)) hle
    have hrest : pos + 1 + xs.length ≤ size := by
      rw [List.length_cons] at hle
      omega
    have hplace : (fun i => pos + (i + 1)) = (pos + 1 + ·) := funext fun i => by omega
    rw [replaceEach, scatter, hplace]
    exact ih (h x hs hlt) hrest

namespace Channel

/-! ## What a channel does to contents -/

/-- At a state that holds `f`, the channel reads `f` and writes changes of it, all of it in range. -/
structure Serves (c : Channel σ α) (holds : σ → (Nat → α) → Prop) (s : σ) (f : Nat → α) :
    Prop where
  get : ∀ {p}, p < c.size → (c.get p).outcome s = (.ok (f p), s)
  set : ∀ {p} x, p < c.size →
    ∃ s', (c.set p x).outcome s = (.ok (), s') ∧ holds s' (Function.update f p x)
  read : ∀ {p n}, p + n ≤ c.size →
    (c.readSpan ⟨p, n⟩).outcome s = (.ok ((List.range' p n).map f), s)
  write : ∀ {p xs}, p + xs.length ≤ c.size →
    ∃ s', (c.write p xs).outcome s = (.ok (), s') ∧ holds s' (scatter (p + ·) f xs)
  set_lt : ∀ {p x s'}, (c.set p x).outcome s = (.ok (), s') → p < c.size
  write_le : ∀ {p xs s'}, (c.write p xs).outcome s = (.ok (), s') → p + xs.length ≤ c.size

/-- The channel reads what is held and writes what is to be held. What is held beyond its size does not
matter. -/
structure Faithful (c : Channel σ α) (holds : σ → (Nat → α) → Prop) : Prop where
  serves : ∀ {s f}, holds s f → c.Serves holds s f
  congr : ∀ {s f g}, holds s f → (∀ p < c.size, f p = g p) → holds s g

/-- States that hold the same. -/
def HoldSame (holds : σ → (Nat → α) → Prop) (s t : σ) : Prop := ∃ f, holds s f ∧ holds t f

variable {c d : Channel σ α} {holds : σ → (Nat → α) → Prop} {s t : σ} {g : Nat → α} {pos : Nat}

/-- States that hold the same hold all the same. -/
theorem Faithful.holds_of_holdSame (h : c.Faithful holds) (hst : HoldSame holds s t)
    (ht : holds t g) : holds s g := by
  obtain ⟨f, hs, ht'⟩ := hst
  refine h.congr hs fun p hp => ?_
  have hget := ((h.serves ht').get hp).symm.trans ((h.serves ht).get hp)
  injection hget with hvalue
  injection hvalue

/-- Asking for one element after the other gives them in order, if each can be read. -/
theorem itemsEach_outcome (hget : ∀ {p}, p < c.size → (c.get p).outcome s = (.ok (f p), s)) {n : Nat}
    (hle : pos + n ≤ c.size) :
    (c.itemsEach pos n).outcome s = (.ok ((List.range' pos n).map f), s) := by
  induction n generalizing pos with
  | zero => rfl
  | succ n ih =>
    have hrest : pos + 1 + n ≤ c.size := by omega
    rw [itemsEach, Act.outcome_bind, hget (by omega), Act.resume_ok, Act.outcome_bind, ih hrest,
      Act.resume_ok, Act.outcome_pure]
    rfl

/-- Writes that go to places of a faithful channel, one after the other, scatter the elements. -/
theorem Faithful.writeEach_scatter (h : c.Faithful holds) (hs : holds s f)
    (hset : ∀ i < xs.length, d.set (pos + i) = c.set (place i) ∧ place i < c.size) :
    ∃ s', (d.writeEach pos xs).outcome s = (.ok (), s') ∧ holds s' (scatter place f xs) := by
  induction xs generalizing s f pos place with
  | nil => exact ⟨s, rfl, hs⟩
  | cons x xs ih =>
    obtain ⟨hfirst, hlt⟩ := hset 0 (Nat.succ_pos _)
    obtain ⟨t, ht, hheld⟩ := (h.serves hs).set x hlt
    have hrest : ∀ i < xs.length, d.set (pos + 1 + i) = c.set (place (i + 1)) ∧
        place (i + 1) < c.size := fun i hi => by
      rw [Nat.add_assoc, Nat.add_comm 1]
      exact hset (i + 1) (Nat.succ_lt_succ hi)
    obtain ⟨s', hs', hheld'⟩ := ih hheld hrest
    refine ⟨s', ?_, hheld'⟩
    rw [writeEach, Act.outcome_bind, show d.set pos = c.set (place 0) from hfirst, ht]
    exact hs'

theorem Faithful.steady (h : c.Faithful holds) : c.Steady (HoldSame holds) where
  read hle := by
    rintro s t ⟨f, hs, ht⟩
    rw [(h.serves hs).read hle, itemsEach_outcome (h.serves ht).get hle]
    exact ⟨rfl, f, hs, ht⟩
  write {pos xs} hle := by
    rintro s t ⟨f, hs, ht⟩
    obtain ⟨s', hrun, hheld⟩ := (h.serves hs).write hle
    obtain ⟨t', hrun', hheld'⟩ := h.writeEach_scatter ht fun i (hi : i < xs.length) =>
      ⟨(rfl : c.set (pos + i) = _), show pos + i < c.size by omega⟩
    rw [hrun, hrun']
    exact ⟨rfl, _, hheld, hheld'⟩

/-- At `s`, single and bulk reads in range give `f`. -/
structure Shows (c : Channel σ α) (s : σ) (f : Nat → α) : Prop where
  get : ∀ {p}, p < c.size → (c.get p).outcome s = (.ok (f p), s)
  read : ∀ {p n}, p + n ≤ c.size →
    ((c.readSpan ⟨p, n⟩).outcome s).1 = .ok ((List.range' p n).map f)

/-- What single reads give, bulk reads of a steady channel give too. -/
theorem Steady.shows (h : c.Steady (HoldSame holds)) (hs : holds s g)
    (hget : ∀ {p}, p < c.size → (c.get p).outcome s = (.ok (f p), s)) : c.Shows s f where
  get := hget
  read hle := by
    rw [(h.read hle s s ⟨g, hs, hs⟩).1, itemsEach_outcome hget hle]

/-- What single reads give, bulk reads that move one element at a time give too. -/
theorem shows_stepwise (hget : ∀ {p}, p < c.size → (c.get p).outcome s = (.ok (f p), s)) :
    c.stepwise.Shows s f where
  get := hget
  read hle := by rw [readSpan_stepwise_of_le c hle, itemsEach_outcome hget hle]

/-! ## Checked requests -/

theorem outcome_checked {β : Type} {size p : Nat} (h : p < size) (body : Act σ β) :
    (do
      Act.ofExcept (checkPos size p)
      body).outcome = body.outcome := by
  funext s
  rw [checkPos, if_pos h, Act.outcome_bind, Act.outcome_ofExcept, Act.resume_ok]

theorem lt_of_checked {β : Type} {size p : Nat} {body : Act σ β} {x : β} {t : σ}
    (h : (do
      Act.ofExcept (checkPos size p)
      body).outcome s = (.ok x, t)) : p < size := by
  rw [checkPos, Act.outcome_bind, Act.outcome_ofExcept] at h
  split at h
  · assumption
  · rw [Act.resume_error] at h
    cases h

theorem le_of_writeWithin {size p n : Nat} {body : Act σ Unit}
    (h : (writeWithin size p n body).outcome s = (.ok (), t)) : p + n ≤ size := by
  rw [writeWithin, checkRange, Act.outcome_bind, Act.outcome_ofExcept] at h
  split at h
  · assumption
  · rw [Act.resume_error] at h
    cases h

theorem outcome_writeWithin {size p n : Nat} (h : p + n ≤ size) (body : Act σ Unit) :
    (writeWithin size p n body).outcome = body.outcome := by
  funext s
  rw [writeWithin, checkRange, if_pos h, Act.outcome_bind, Act.outcome_ofExcept, Act.resume_ok]

/-- Positions in range are read alike if they hold the same. -/
theorem map_range'_congr {g : Nat → α} {size p n : Nat} (h : ∀ q < size, g q = f q)
    (hle : p + n ≤ size) : (List.range' p n).map g = (List.range' p n).map f :=
  List.map_congr_left fun q hq => h q (Nat.lt_of_lt_of_le (List.mem_range'_1.1 hq).2 hle)

theorem map_range_add (f : Nat → α) (p n : Nat) :
    ((List.range n).map fun i => f (p + i)) = (List.range' p n).map f := by
  rw [List.range'_eq_map_range, List.map_map]
  rfl

/-- A bulk read in range that only looks at the state. -/
theorem outcome_readSpan_look {g : σ → List α} {p n : Nat}
    (hread : c.read p n = readWithin c.size p n (Effect.look fun s => .done (g s)))
    (hle : p + n ≤ c.size) (s : σ) : (c.readSpan ⟨p, n⟩).outcome s = (.ok (g s), s) := by
  rw [readSpan_eq, hread, complete_readWithin, checkRange, if_pos hle]
  rfl

/-! ## Filling -/

variable {R : σ → σ → Prop}

/-- Writing a value span by span is writing it to one position after the other. -/
theorem Uniform.alike_writeSpans (h : c.Uniform R) (reach : Nat → Nat → Nat) (x : α) {left : Nat}
    (hle : pos + left ≤ c.size) :
    Act.Alike R ((walk reach pos left).forM fun s => c.write s.start (List.replicate s.length x))
      (c.writeEach pos (List.replicate left x)) := by
  induction left using Nat.strongRecOn generalizing pos with
  | ind left ih =>
    by_cases hzero : left = 0
    · subst hzero
      rw [walk_zero]
      exact Act.Alike.pure ()
    have hpos : 1 ≤ stride reach pos left := one_le_stride ..
    have hstride : stride reach pos left ≤ left := stride_le hzero
    have hne : List.replicate (stride reach pos left) x ≠ [] := by
      rw [Ne, List.replicate_eq_nil_iff]
      omega
    have hhead : pos + (List.replicate (stride reach pos left) x).length ≤ c.size := by
      rw [List.length_replicate]
      omega
    rw [walk_of_ne_zero hzero, writeEach_take_drop c pos (List.replicate left x)
      (n := stride reach pos left) (by rwa [List.length_replicate]), List.take_replicate,
      List.drop_replicate, Nat.min_eq_left hstride]
    refine (h.writeEach hne hhead).bind fun _ => ?_
    exact ih _ (by omega) (by omega)

/-- Filling is writing the value to every position, one after the other. -/
theorem Uniform.alike_fill (h : c.Uniform R) (x : α) :
    Act.Alike R (c.fill x) (c.writeEach 0 (List.replicate c.size x)) :=
  h.alike_writeSpans _ x (Nat.le_of_eq (Nat.zero_add _))

end Channel

end Orthotope
