import Orthotope.Proofs.Effect.Alike

/-!
# Bulk transfers and single accesses

`Channel.stepwise` is the plain way to move many elements, and a channel does as its stepwise form
(`Channel.LikeStepwise`) if its bulk transfers come to the same. What a transfer comes to is its
answer or failure, for a read that succeeds the elements, and the state up to a relation `R`; where
a read fails, the elements handed over before the failure do not count.

A channel need not do so on every request to be a good foundation: `Channel.Uniform` asks it only of
requests that are in range and not empty, `Channel.Steady` of all that are in range.

Reads are compared as acts that give a list. `Act.complete` makes a transfer one, and
`Channel.itemsEach` is the stepwise read as such an act. Long requests are cut in two by
`Channel.itemsEach_add` and `Channel.writeEach_take_drop`.
-/

namespace Orthotope

variable {σ α β : Type} {R : σ → σ → Prop}

/-- The elements of a transfer if it is complete. -/
def Transfer.whole (t : Transfer α) : Except Error (List α) := t.result.map fun _ => t.items

namespace Act

/-- A transfer as an act that fails unless the transfer is complete. -/
def complete (e : Effect σ (Transfer α)) : Act σ (List α) := ExceptT.mk (Transfer.whole <$> e)

/-- A transfer that starts with the answer of an act, complete. -/
theorem complete_after (a : Act σ β) (g : β → List α) (k : Effect σ (Transfer α)) :
    complete (do
      match ← a.run with
      | .error e => return .failed e
      | .ok x => return .after (g x) (← k)) =
    (do
      let x ← a
      let xs ← complete k
      return g x ++ xs) := by
  apply ExceptT.ext
  rw [ExceptT.run_bind, complete, ExceptT.run_mk, map_bind]
  refine bind_congr fun x => ?_
  cases x with
  | error e => rfl
  | ok x =>
    show Transfer.whole <$> (k >>= fun t => pure (Transfer.after (g x) t)) =
      (complete k >>= fun xs => pure (g x ++ xs)).run
    rw [ExceptT.run_bind, complete, ExceptT.run_mk, map_bind, bind_map_left]
    refine bind_congr fun t => ?_
    obtain ⟨items, result⟩ := t
    cases result <;> rfl

end Act

namespace Channel

/-! ## Reads as lists -/

theorem readSpan_eq (c : Channel σ α) (s : Span) :
    c.readSpan s = Act.complete (c.read s.start s.length) := by
  apply ExceptT.ext
  rw [readSpan, Act.ofEffect, ExceptT.run_bind_lift, Act.complete, ExceptT.run_mk,
    map_eq_pure_bind]
  refine bind_congr fun t => ?_
  obtain ⟨items, result⟩ := t
  cases result <;> rfl

/-- The elements at `count` positions, asked for one after the other. -/
def itemsEach (c : Channel σ α) (pos : Nat) : (count : Nat) → Act σ (List α)
  | 0 => pure []
  | count + 1 => do
    let x ← c.get pos
    let xs ← c.itemsEach (pos + 1) count
    return x :: xs

theorem complete_readEach (c : Channel σ α) (pos count : Nat) :
    Act.complete (c.readEach pos count) = c.itemsEach pos count := by
  induction count generalizing pos with
  | zero => rfl
  | succ count ih =>
    rw [itemsEach, ← ih]
    exact Act.complete_after (c.get pos) (fun x => [x]) (c.readEach (pos + 1) count)

/-- A read that is guarded by its range, complete. -/
theorem complete_readWithin (size pos count : Nat) (body : Effect σ (Transfer α)) :
    Act.complete (readWithin size pos count body) =
      (do
        Act.ofExcept (checkRange size pos count)
        Act.complete body) := by
  unfold readWithin
  cases checkRange size pos count <;> rfl

/-- A stepwise read checks the range and asks for one element after the other. -/
theorem readSpan_stepwise (c : Channel σ α) (pos count : Nat) :
    c.stepwise.readSpan ⟨pos, count⟩ =
      (do
        Act.ofExcept (checkRange c.size pos count)
        c.itemsEach pos count) := by
  rw [readSpan_eq, ← complete_readEach]
  exact complete_readWithin ..

/-- A stepwise read in range asks for one element after the other. -/
theorem readSpan_stepwise_of_le (c : Channel σ α) {pos count : Nat} (h : pos + count ≤ c.size) :
    c.stepwise.readSpan ⟨pos, count⟩ = c.itemsEach pos count := by
  rw [readSpan_stepwise, checkRange, if_pos h]
  rfl

/-- A stepwise write in range replaces one element after the other. -/
theorem write_stepwise_of_le (c : Channel σ α) {pos : Nat} {xs : List α}
    (h : pos + xs.length ≤ c.size) : c.stepwise.write pos xs = c.writeEach pos xs := by
  show writeWithin c.size pos xs.length (c.writeEach pos xs) = _
  rw [writeWithin, checkRange, if_pos h]
  rfl

/-- Asking for many elements is asking for the first few and then for the others. -/
theorem itemsEach_add (c : Channel σ α) (pos m n : Nat) :
    c.itemsEach pos (m + n) =
      (do
        let xs ← c.itemsEach pos m
        let ys ← c.itemsEach (pos + m) n
        return xs ++ ys) := by
  induction m generalizing pos with
  | zero => simp [itemsEach]
  | succ m ih =>
    rw [Nat.add_right_comm]
    simp [itemsEach, ih, Nat.add_assoc, Nat.add_comm 1]

/-- Replacing many elements is replacing the first few and then the others. -/
theorem writeEach_take_drop (c : Channel σ α) (pos : Nat) (xs : List α) {n : Nat}
    (h : n ≤ xs.length) :
    c.writeEach pos xs =
      (do
        c.writeEach pos (xs.take n)
        c.writeEach (pos + n) (xs.drop n)) := by
  induction n generalizing pos xs with
  | zero => simp [writeEach]
  | succ n ih =>
    cases xs with
    | nil => cases h
    | cons x xs =>
      rw [writeEach, ih (pos + 1) xs (Nat.le_of_succ_le_succ h)]
      simp [writeEach, Nat.add_assoc, Nat.add_comm 1]

theorem writeEach_singleton (c : Channel σ α) (pos : Nat) (x : α) :
    c.writeEach pos [x] = c.set pos x := bind_pure_unit

/-! ## Doing as the stepwise form -/

/-- Bulk transfers that are in range and not empty do as those of the stepwise form. -/
structure Uniform (R : σ → σ → Prop) (c : Channel σ α) : Prop where
  read : ∀ pos count, 0 < count → pos + count ≤ c.size →
    Act.Alike R (c.readSpan ⟨pos, count⟩) (c.stepwise.readSpan ⟨pos, count⟩)
  write : ∀ pos xs, xs ≠ [] → pos + xs.length ≤ c.size →
    Act.Alike R (c.write pos xs) (c.stepwise.write pos xs)

/-- All bulk transfers do as those of the stepwise form. -/
structure LikeStepwise (R : σ → σ → Prop) (c : Channel σ α) : Prop where
  read : ∀ pos count, Act.Alike R (c.readSpan ⟨pos, count⟩) (c.stepwise.readSpan ⟨pos, count⟩)
  write : ∀ pos xs, Act.Alike R (c.write pos xs) (c.stepwise.write pos xs)

variable {c : Channel σ α}

theorem LikeStepwise.uniform (h : c.LikeStepwise R) : c.Uniform R :=
  ⟨fun pos count _ _ => h.read pos count, fun pos xs _ _ => h.write pos xs⟩

/-- Bulk transfers that move one element at a time only use single accesses. -/
theorem stepwise_congr {d : Channel σ α} (hsize : c.size = d.size) (hget : c.get = d.get)
    (hset : c.set = d.set) : c.stepwise = d.stepwise := by
  have hread : ∀ p n, c.readEach p n = d.readEach p n := by
    intro p n
    induction n generalizing p with
    | zero => rfl
    | succ n ih => simp only [readEach, hget, ih]
  have hwrite : ∀ p xs, c.writeEach p xs = d.writeEach p xs := by
    intro p xs
    induction xs generalizing p with
    | nil => rfl
    | cons x xs ih => simp only [writeEach, hset, ih]
  simp only [stepwise, hsize, hget, hset, hread, hwrite]

/-- Moving elements one at a time is its own stepwise form. -/
@[simp] theorem stepwise_stepwise (c : Channel σ α) : c.stepwise.stepwise = c.stepwise :=
  stepwise_congr rfl rfl rfl

theorem likeStepwise_stepwise (c : Channel σ α) : c.stepwise.LikeStepwise (· = ·) where
  read _ _ := Act.alike_eq_iff.2 (by rw [stepwise_stepwise])
  write _ _ := Act.alike_eq_iff.2 (by rw [stepwise_stepwise])

/-- A read of some elements in range asks for one after the other. -/
theorem Uniform.readSpan (h : c.Uniform R) {pos count : Nat} (hcount : 0 < count)
    (hle : pos + count ≤ c.size) :
    Act.Alike R (c.readSpan ⟨pos, count⟩) (c.itemsEach pos count) := by
  rw [← c.readSpan_stepwise_of_le hle]
  exact h.read pos count hcount hle

/-- A write of some elements in range replaces one after the other. -/
theorem Uniform.writeEach (h : c.Uniform R) {pos : Nat} {xs : List α} (hxs : xs ≠ [])
    (hle : pos + xs.length ≤ c.size) : Act.Alike R (c.write pos xs) (c.writeEach pos xs) := by
  rw [← c.write_stepwise_of_le hle]
  exact h.write pos xs hxs hle

/-- Bulk transfers in range, also empty ones, move one element after the other. -/
structure Steady (R : σ → σ → Prop) (c : Channel σ α) : Prop where
  read : ∀ {pos count}, pos + count ≤ c.size →
    Act.Alike R (c.readSpan ⟨pos, count⟩) (c.itemsEach pos count)
  write : ∀ {pos xs}, pos + xs.length ≤ c.size →
    Act.Alike R (c.write pos xs) (c.writeEach pos xs)

theorem Steady.uniform (h : c.Steady R) : c.Uniform R where
  read pos count _ hle := by
    rw [c.readSpan_stepwise_of_le hle]
    exact h.read hle
  write pos xs _ hle := by
    rw [c.write_stepwise_of_le hle]
    exact h.write hle

theorem LikeStepwise.steady (h : c.LikeStepwise R) : c.Steady R where
  read {pos count} hle := by
    rw [← c.readSpan_stepwise_of_le hle]
    exact h.read pos count
  write {pos xs} hle := by
    rw [← c.write_stepwise_of_le hle]
    exact h.write pos xs

/-- A bulk read that checks its range does as the stepwise form if its body asks for one element after
the other whenever the request is in range. -/
theorem alike_readWithin {pos count : Nat} {body : Effect σ (Transfer α)}
    (hread : c.read pos count = readWithin c.size pos count body)
    (h : pos + count ≤ c.size → Act.Alike R (Act.complete body) (c.itemsEach pos count)) :
    Act.Alike R (c.readSpan ⟨pos, count⟩) (c.stepwise.readSpan ⟨pos, count⟩) := by
  rw [readSpan_eq, hread, complete_readWithin, readSpan_stepwise, checkRange]
  split
  · next hle => exact (Act.Alike.pure ()).bind fun _ => h hle
  · exact Act.Alike.ofExcept (.error _)

/-- A bulk write that checks its range does as the stepwise form if its body replaces one element
after the other whenever the request is in range. -/
theorem alike_writeWithin {pos : Nat} {xs : List α} {body : Act σ Unit}
    (hwrite : c.write pos xs = writeWithin c.size pos xs.length body)
    (h : pos + xs.length ≤ c.size → Act.Alike R body (c.writeEach pos xs)) :
    Act.Alike R (c.write pos xs) (c.stepwise.write pos xs) := by
  show Act.Alike R _ (writeWithin c.size pos xs.length (c.writeEach pos xs))
  rw [hwrite, writeWithin, writeWithin, checkRange]
  split
  · next hle => exact (Act.Alike.pure ()).bind fun _ => h hle
  · exact Act.Alike.ofExcept (.error _)

end Channel

end Orthotope
