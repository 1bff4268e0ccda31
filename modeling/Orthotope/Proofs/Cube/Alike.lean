import Orthotope.Proofs.Channel.Missing
import Orthotope.Proofs.Cube.Bulk
import Orthotope.Proofs.Cube.Writing

/-!
# Cubes that no call tells apart

Two channels are alike (`Channel.Alike`) if every call comes to the same on both, up to a relation `R`
between states. Two stacks of layers over one leaf may lead to the same elements and yet cut bulk
transfers into different pieces. They are alike even so (`Channel.Alike.of_same`) if both do as their
stepwise forms, have the same single accesses in range and refuse those out of range
(`Channel.Bounded`).

For that `R` has to be a `Likeness`. Single accesses from states that are alike then come to the same,
since bulk transfers of one element do (`Channel.Uniform.get_self`, `Channel.Uniform.set_self`). If the
channels of a leaf agree, the raw one does as its stepwise form if the nullable one does
(`Access.Agrees.moves_stepwise`).
-/

namespace Orthotope

variable {σ α β : Type} {R : σ → σ → Prop}

namespace Channel

/-! ## Out of range -/

/-- In a state, single accesses that are out of range are refused and change nothing. -/
structure Bounded (c : Channel σ α) (s : σ) : Prop where
  get : ∀ {p}, ¬ p < c.size → (c.get p).outcome s = (.error (.position p c.size), s)
  set : ∀ {p} x, ¬ p < c.size → (c.set p x).outcome s = (.error (.position p c.size), s)

/-- What is checked for its position is refused if that is out of range. -/
theorem outcome_refused {size p : Nat} (h : ¬ p < size) (body : Act σ β) (s : σ) :
    (do
      Act.ofExcept (checkPos size p)
      body : Act σ β).outcome s = (.error (.position p size), s) := by
  rw [checkPos, if_neg h]
  rfl

/-- A view refuses what is out of its range, whatever is beneath. -/
theorem bounded_through (c : Channel σ α) (v : View) (logged : Bool) (s : σ) :
    (c.through v logged).Bounded s :=
  ⟨fun hp => outcome_refused hp _ s, fun _ hp => outcome_refused hp _ s⟩

variable {c d : Channel σ α} {s : σ}

theorem Bounded.convert {c : Channel σ β} (h : c.Bounded s) (into : β → α) (back : α → β)
    (log : Nat → Nat → List Event) : (c.convert into back log).Bounded s where
  get {p} hp := by
    show (into <$> c.get p).outcome s = _
    rw [Act.outcome_map, h.get hp]
    rfl
  set x hp := h.set (back x) hp

theorem Bounded.orNull (h : c.Bounded s) (null : α) : (c.orNull null).Bounded s where
  get {p} hp := by
    show (some <$> c.get p).outcome s = _
    rw [Act.outcome_map, h.get hp]
    rfl
  set x hp := h.set (x.getD null) hp

theorem Bounded.stepwise (h : c.Bounded s) : c.stepwise.Bounded s := ⟨h.get, h.set⟩

theorem Plain.bounded {inv : σ → Prop} {item : σ → Nat → α} {replace : σ → Nat → α → σ}
    (h : c.Plain inv item replace) (s : σ) : c.Bounded s where
  get hp := by rw [Act.outcome, h.get_error hp]
  set x hp := by rw [Act.outcome, h.set_error hp]

/-! ## Single accesses from states that are alike -/

/-- A read of one element is a single access. -/
theorem itemsEach_one (c : Channel σ α) (p : Nat) : c.itemsEach p 1 = (fun x => [x]) <$> c.get p := by
  simp [itemsEach]

/-- From states that are alike, a single read in range comes to the same. -/
theorem Uniform.get_self (hR : Likeness R) (h : c.Uniform R) {p : Nat} (hp : p < c.size) :
    Act.Alike R (c.get p) (c.get p) := by
  have hone := h.readSpan Nat.one_pos (show p + 1 ≤ c.size from hp)
  rw [itemsEach_one] at hone
  have hself := (hone.symm hR).trans hR hone
  intro s t hst
  obtain ⟨hvalue, hstate⟩ := hself s t hst
  rw [Act.outcome_map, Act.outcome_map] at hvalue hstate
  refine ⟨?_, hstate⟩
  rcases hs : ((c.get p).outcome s).1 with e | x <;> rcases ht : ((c.get p).outcome t).1 with e' | y <;>
    rw [hs, ht] at hvalue
  · exact congrArg Except.error (Except.error.inj hvalue)
  · cases hvalue
  · cases hvalue
  · exact congrArg Except.ok (List.cons.inj (Except.ok.inj hvalue)).1

/-- From states that are alike, a single write in range comes to the same. -/
theorem Uniform.set_self (hR : Likeness R) (h : c.Uniform R) {p : Nat} (x : α) (hp : p < c.size) :
    Act.Alike R (c.set p x) (c.set p x) := by
  have hone := h.writeEach (List.cons_ne_nil x []) (show p + [x].length ≤ c.size from hp)
  rw [writeEach_singleton] at hone
  exact (hone.symm hR).trans hR hone

/-! ## Every call -/

/-- Every call comes to the same on both channels. The cubes that they belong to have the given
shape. -/
structure Alike (R : σ → σ → Prop) (shape : List Nat) (c d : Channel σ α) : Prop where
  size : c.size = d.size
  get : ∀ p, Act.Alike R (c.get p) (d.get p)
  read : ∀ p n, Act.Alike R (c.readSpan ⟨p, n⟩) (d.readSpan ⟨p, n⟩)
  write : ∀ op : Writing α, Act.Alike R (op.run shape c) (op.run shape d)

section
variable (hget : ∀ p < c.size, c.get p = d.get p) (hset : ∀ p < c.size, ∀ x, c.set p x = d.set p x)
include hget

theorem itemsEach_congr {p n : Nat} (hle : p + n ≤ c.size) : c.itemsEach p n = d.itemsEach p n := by
  induction n generalizing p with
  | zero => rfl
  | succ n ih => rw [itemsEach, itemsEach, hget p (by omega), ih (by omega)]

/-- Stepwise reads only need single reads in range. -/
theorem readSpan_stepwise_congr (hsize : c.size = d.size) (p n : Nat) :
    c.stepwise.readSpan ⟨p, n⟩ = d.stepwise.readSpan ⟨p, n⟩ := by
  rw [readSpan_stepwise, readSpan_stepwise, ← hsize, checkRange]
  split
  · next hle => rw [itemsEach_congr hget hle]
  · rfl

omit hget
include hset

theorem writeEach_congr {p : Nat} {xs : List α} (hle : p + xs.length ≤ c.size) :
    c.writeEach p xs = d.writeEach p xs := by
  induction xs generalizing p with
  | nil => rfl
  | cons x xs ih =>
    rw [List.length_cons] at hle
    rw [writeEach, writeEach, hset p (by omega), ih (by omega)]

/-- Stepwise writes only need single writes in range. -/
theorem write_stepwise_congr (hsize : c.size = d.size) (p : Nat) (xs : List α) :
    c.stepwise.write p xs = d.stepwise.write p xs := by
  show writeWithin c.size p xs.length (c.writeEach p xs) =
    writeWithin d.size p xs.length (d.writeEach p xs)
  rw [← hsize, writeWithin, writeWithin, checkRange]
  split
  · next hle => rw [writeEach_congr hset hle]
  · rfl

end

/-- Channels with the same single accesses are alike, if their bulk transfers come to those. -/
theorem Alike.of_same (hR : Likeness R) (hc : c.LikeStepwise R) (hd : d.LikeStepwise R)
    (hbounded : ∀ {s t}, R s t → c.Bounded s ∧ d.Bounded s) (hsize : c.size = d.size)
    (hget : ∀ p < c.size, c.get p = d.get p) (hset : ∀ p < c.size, ∀ x, c.set p x = d.set p x)
    (shape : List Nat) : c.Alike R shape d := by
  have hread : ∀ p n, Act.Alike R (c.readSpan ⟨p, n⟩) (d.readSpan ⟨p, n⟩) := fun p n => by
    have hsame := hc.read p n
    rw [readSpan_stepwise_congr hget hsize] at hsame
    exact hsame.trans hR ((hd.read p n).symm hR)
  have hwrite : ∀ p xs, Act.Alike R (c.write p xs) (d.write p xs) := fun p xs => by
    have hsame := hc.write p xs
    rw [write_stepwise_congr hset hsize] at hsame
    exact hsame.trans hR ((hd.write p xs).symm hR)
  have hset' : ∀ p x, Act.Alike R (c.set p x) (d.set p x) := fun p x => by
    rcases Nat.lt_or_ge p c.size with hp | hp
    · rw [← hset p hp x]
      exact hc.uniform.set_self hR x hp
    · intro s t hst
      rw [(hbounded hst).1.set x (Nat.not_lt.2 hp),
        (hbounded (hR.symm hst)).2.set x (Nat.not_lt.2 (hsize ▸ hp)), hsize]
      exact ⟨rfl, hst⟩
  refine ⟨hsize, fun p => ?get, hread, fun op => ?write⟩
  case get =>
    rcases Nat.lt_or_ge p c.size with hp | hp
    · rw [← hget p hp]
      exact hc.uniform.get_self hR hp
    · intro s t hst
      rw [(hbounded hst).1.get (Nat.not_lt.2 hp),
        (hbounded (hR.symm hst)).2.get (Nat.not_lt.2 (hsize ▸ hp)), hsize]
      exact ⟨rfl, hst⟩
  case write =>
    cases op with
    | set coords x => exact (Act.Alike.ofExcept _).bind fun p => hset' p x
    | setAt p x => exact hset' p x
    | write p xs => exact hwrite p xs
    | fill x =>
      show Act.Alike R (c.fill x) (d.fill x)
      rw [fill, fill, hsize]
      induction blocks 0 d.size with
      | nil => exact Act.Alike.pure ()
      | cons s spans ih => exact (hwrite s.start _).bind fun _ => ih

/-! ## Stepwise forms of channels that do like one another -/

section
variable {c : Channel σ α} {d : Channel σ β} {f : α → β} {g : β → α}

theorem ReadsLike.itemsEach (h : c.ReadsLike R f d) (p n : Nat) :
    Act.Like R (List.map f) (c.itemsEach p n) (d.itemsEach p n) := by
  induction n generalizing p with
  | zero => exact Effect.Like.pure rfl
  | succ n ih =>
    exact (h.get p).bind fun x => (ih (p + 1)).bind fun xs => Effect.Like.pure rfl

theorem WritesLike.writeEach (h : c.WritesLike R g d) (p : Nat) (xs : List β) :
    Act.Alike R (c.writeEach p (xs.map g)) (d.writeEach p xs) := by
  induction xs generalizing p with
  | nil => exact Act.Alike.pure ()
  | cons x xs ih => exact (h.set p x).bind fun _ => ih (p + 1)

/-- What does like a channel that does as its stepwise form does so itself. -/
theorem LikeStepwise.of_like (hR : Likeness R) (h : c.LikeStepwise R) (hreads : c.ReadsLike R f d)
    (hwrites : c.WritesLike R g d) : d.LikeStepwise R where
  read p n := by
    have hstepwise : Act.Like R (List.map f) (c.stepwise.readSpan ⟨p, n⟩)
        (d.stepwise.readSpan ⟨p, n⟩) := by
      rw [readSpan_stepwise, readSpan_stepwise, hreads.size]
      exact (hreads.itemsEach p n).checked _
    intro s t hst
    have hss : R s s := hR.trans hst (hR.symm hst)
    obtain ⟨hvalue, hstate⟩ := hreads.readSpan ⟨p, n⟩ s s hss
    obtain ⟨hvalue', hstate'⟩ := h.read p n s t hst
    obtain ⟨hvalue'', hstate''⟩ := hstepwise t t (hR.trans (hR.symm hst) hst)
    have hchain : ((d.readSpan ⟨p, n⟩).outcome s).1 = ((d.stepwise.readSpan ⟨p, n⟩).outcome t).1 :=
      hvalue.symm.trans ((congrArg (Except.map (List.map f)) hvalue').trans hvalue'')
    exact ⟨hchain, hR.trans (hR.symm hstate) (hR.trans hstate' hstate'')⟩
  write p xs := by
    have hlen : (xs.map g).length = xs.length := List.length_map g
    have hstepwise : Act.Alike R (c.stepwise.write p (xs.map g)) (d.stepwise.write p xs) := by
      show Act.Alike R (writeWithin c.size p (xs.map g).length (c.writeEach p (xs.map g)))
        (writeWithin d.size p xs.length (d.writeEach p xs))
      rw [hlen, hwrites.size]
      exact alike_checked _ (hwrites.writeEach p xs)
    exact ((hwrites.write p xs).symm hR).trans hR ((h.write p _).trans hR hstepwise)

end

end Channel

/-! ## Both channels of a cube -/

namespace Access

/-- Single accesses to both channels that are out of range are refused. -/
structure Bounded (a : Access σ α) (s : σ) : Prop where
  raw : a.raw.Bounded s
  nullable : a.nullable.Bounded s

/-- Every call comes to the same on both cubes, which have the given shape. -/
structure Alike (R : σ → σ → Prop) (shape : List Nat) (a b : Access σ α) : Prop where
  raw : a.raw.Alike R shape b.raw
  nullable : a.nullable.Alike R shape b.nullable

variable {a b : Access σ α} {s : σ}

theorem bounded_through (a : Access σ α) (v : View) (s : σ) : (a.through v).Bounded s :=
  ⟨a.raw.bounded_through v true s, a.nullable.bounded_through v false s⟩

theorem Bounded.convert {source : Kind} {a : Access σ source.Elem} (h : a.Bounded s) (target : Kind) :
    (a.convert target).Bounded s :=
  ⟨h.raw.convert .., h.nullable.convert ..⟩

/-- Cubes that reach the same elements are alike, if their bulk transfers come to single accesses. -/
theorem Alike.of_same (hR : Likeness R) (ha : a.LikeStepwise R) (hb : b.LikeStepwise R)
    (hbounded : ∀ {s t}, R s t → a.Bounded s ∧ b.Bounded s) (hraw : a.raw.size = b.raw.size)
    (hnullable : a.nullable.size = b.nullable.size) (hsizes : a.raw.size = a.nullable.size)
    (hsame : ∀ p < a.raw.size, SameAt a b p p) (shape : List Nat) : a.Alike R shape b where
  raw := Channel.Alike.of_same hR ha.raw hb.raw
    (fun hst => ⟨(hbounded hst).1.raw, (hbounded hst).2.raw⟩) hraw (fun p hp => (hsame p hp).get)
    (fun p hp => (hsame p hp).set) shape
  nullable := Channel.Alike.of_same hR ha.nullable hb.nullable
    (fun hst => ⟨(hbounded hst).1.nullable, (hbounded hst).2.nullable⟩) hnullable
    (fun p hp => (hsame p (hsizes ▸ hp)).getNull) (fun p hp => (hsame p (hsizes ▸ hp)).setNull) shape

/-- Channels that agree do as their stepwise forms if the nullable one does. -/
theorem Agrees.moves_stepwise {missing : α} (hR : Likeness R) (h : a.Agrees R missing)
    (horderly : a.Orderly R) : a.LikeStepwise R :=
  ⟨horderly.stepwise.of_like hR h.reads h.writes, horderly.stepwise⟩

end Access

end Orthotope
