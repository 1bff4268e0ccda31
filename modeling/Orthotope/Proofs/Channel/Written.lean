import Orthotope.Proofs.Channel.Plain

/-!
# What requests write

A request in range writes the elements `Access.Request.writes`, a missing one as the null value, and
one beyond the size writes nothing. What all of a list of requests leave at a position is what the last
of them puts there (`Access.lastPut`).

If both channels of an access are plain and differ in how a missing element is written only, a request
to it is a write in range that is done, or changes nothing (`Access.PlainBoth.answer_cases`). States that
are described by what was put to each position stay so with one request (`Access.PlainBoth.answer_puts`),
and the state after many is described by what was put last (`Access.state_answers_lastPut`).
-/

namespace Orthotope

variable {σ α β : Type}

/-- What elements written from position `p` on put to a position. -/
def placed (p : Nat) (xs : List α) (q : Nat) : Option α :=
  if p ≤ q then xs[q - p]? else none

@[simp] theorem placed_nil (p q : Nat) : placed p ([] : List α) q = none := by
  simp [placed]

theorem placed_cons (p : Nat) (x : α) (xs : List α) (q : Nat) :
    placed p (x :: xs) q = if q = p then some x else placed (p + 1) xs q := by
  unfold placed
  rcases Nat.lt_trichotomy q p with hlt | rfl | hgt
  · simp [show ¬ p ≤ q by omega, show ¬ p + 1 ≤ q by omega, show q ≠ p by omega]
  · simp
  · rw [if_pos (by omega), if_neg (by omega), if_pos (by omega),
      show q - p = q - (p + 1) + 1 by omega, List.getElem?_cons_succ]

/-- No element is put outside the stretch. -/
theorem placed_of_not_mem {p q : Nat} {xs : List α} (h : q < p ∨ p + xs.length ≤ q) :
    placed p xs q = none := by
  unfold placed
  split
  · exact List.getElem?_eq_none (by omega)
  · rfl

theorem lt_of_placed {p q : Nat} {xs : List α} {x : α} (h : placed p xs q = some x) :
    q < p + xs.length := by
  rcases Nat.lt_or_ge q (p + xs.length) with hlt | hle
  · exact hlt
  · rw [placed_of_not_mem (.inr hle)] at h
    cases h

namespace Channel

/-- The first position that a request writes to and the elements, if it writes. -/
def Request.writes : Request α → Option (Nat × List α)
  | .set p x => some (p, [x])
  | .write p xs => some (p, xs)
  | .get _ | .read .. => none

/-- A request comes to one of two things: a write in range, which is done, or nothing, which any other
request comes to. -/
theorem Request.onState_cases (size : Nat) (item : σ → Nat → α) (replace : σ → Nat → α → σ) (s : σ)
    (r : Request α) :
    ((r.onState size item replace s).1 = .done (.ok ()) ∧
      ∃ p xs, r.writes = some (p, xs) ∧ p + xs.length ≤ size ∧
        (r.onState size item replace s).2 = replaceEach replace s p xs) ∨
    ((r.onState size item replace s).1 ≠ .done (.ok ()) ∧ (r.onState size item replace s).2 = s ∧
      ∀ p xs, r.writes = some (p, xs) → ¬ p + xs.length ≤ size) := by
  cases r with
  | get p =>
    simp only [onState]
    split <;> exact .inr ⟨by simp, rfl, by simp [writes]⟩
  | set p x =>
    simp only [onState]
    split
    · next hp => exact .inl ⟨rfl, p, [x], rfl, hp, rfl⟩
    · next hp =>
      refine .inr ⟨by simp, rfl, ?_⟩
      rintro _ _ ⟨rfl⟩ hle
      exact hp hle
  | read p buffer =>
    simp only [onState]
    split <;> exact .inr ⟨by simp, rfl, by simp [writes]⟩
  | write p xs =>
    simp only [onState]
    split
    · next hle => exact .inl ⟨rfl, p, xs, rfl, hle, rfl⟩
    · next hgt =>
      refine .inr ⟨by simp, rfl, ?_⟩
      rintro _ _ ⟨rfl⟩ hle
      exact hgt hle

end Channel

namespace Access

/-- The first position that a request writes to and the elements, a missing one as `null`. -/
def Request.writes (null : α) : Request α → Option (Nat × List α)
  | .raw r => r.writes
  | .nullable r => r.writes.map fun w => (w.1, w.2.map (·.getD null))

/-- What a request puts to a position of a cube with `size` positions. If it goes beyond them, it puts
nothing. -/
def Request.puts (size : Nat) (null : α) (r : Request α) (q : Nat) : Option α :=
  match r.writes null with
  | some (p, xs) => if p + xs.length ≤ size then placed p xs q else none
  | none => none

theorem Request.puts_eq_placed {size : Nat} {null : α} {r : Request α} {p : Nat} {xs : List α}
    (h : r.writes null = some (p, xs)) (hle : p + xs.length ≤ size) (q : Nat) :
    r.puts size null q = placed p xs q := by
  simp only [puts, h, if_pos hle]

theorem Request.puts_eq_none {size : Nat} {null : α} {r : Request α}
    (h : ∀ p xs, r.writes null = some (p, xs) → ¬ p + xs.length ≤ size) (q : Nat) :
    r.puts size null q = none := by
  unfold puts
  split
  · next p xs hwrites => exact if_neg (h p xs hwrites)
  · rfl

/-- What the last request that puts something to a position puts there. -/
def lastPut (size : Nat) (null : α) (requests : List (Request α)) (q : Nat) : Option α :=
  requests.reverse.findSome? fun r => r.puts size null q

theorem lastPut_cons (size : Nat) (null : α) (r : Request α) (requests : List (Request α)) (q : Nat) :
    lastPut size null (r :: requests) q = (lastPut size null requests q).or (r.puts size null q) := by
  rw [lastPut, List.reverse_cons, List.findSome?_append, List.findSome?_singleton]
  rfl

/-- If states are described by what was put to each position, and stay so with each request, they are so
after all of them. -/
theorem state_answers_lastPut {a : Access σ α} {size : Nat} {null : α}
    {R : σ → (Nat → Option α) → Prop}
    (h : ∀ {s g} r, R s g → R ((a.answer r).run s).state fun q => (r.puts size null q).or (g q))
    (requests : List (Request α)) {s : σ} {g : Nat → Option α} (hR : R s g) :
    R ((a.answers requests).run s).state fun q => (lastPut size null requests q).or (g q) := by
  induction requests generalizing s g with
  | nil => exact hR
  | cons r requests ih =>
    simp only [lastPut_cons, Option.or_assoc]
    exact ih (h r hR)

/-- Whether an answer says that a write was done. -/
def Answer.wrote (a : Answer α) : Prop := a = .raw (.done (.ok ())) ∨ a = .nullable (.done (.ok ()))

/-- Both channels are plain, and write alike but for a missing element, which is written as `null`. -/
structure PlainBoth (a : Access σ α) (inv : σ → Prop) (replace : σ → Nat → α → σ) (null : α) :
    Prop where
  raw : ∃ item, a.raw.Plain inv item replace
  nullable : ∃ item, a.nullable.Plain inv item fun s p x => replace s p (x.getD null)
  size_eq : a.nullable.size = a.raw.size

namespace PlainBoth

variable {a : Access σ α} {inv : σ → Prop} {replace : σ → Nat → α → σ} {null : α} {s : σ}

/-- A request comes to one of two things: a write in range, which is done, or nothing, which any other
request comes to. -/
theorem answer_cases (h : a.PlainBoth inv replace null) (hs : inv s) (r : Request α) :
    inv ((a.answer r).run s).state ∧
    ((((a.answer r).run s).value.wrote ∧
      ∃ p xs, r.writes null = some (p, xs) ∧ p + xs.length ≤ a.raw.size ∧
        ((a.answer r).run s).state = replaceEach replace s p xs) ∨
    (¬ ((a.answer r).run s).value.wrote ∧ ((a.answer r).run s).state = s ∧
      ∀ p xs, r.writes null = some (p, xs) → ¬ p + xs.length ≤ a.raw.size)) := by
  cases r with
  | raw r =>
    obtain ⟨item, hraw⟩ := h.raw
    obtain ⟨hrun, hinv⟩ := hraw.answer hs r
    rw [answer, Effect.run_map, hrun]
    refine ⟨hinv, ?_⟩
    rcases r.onState_cases a.raw.size item replace s with ⟨hdone, hwrites⟩ | ⟨hdone, hnothing⟩
    · exact .inl ⟨.inl (congrArg Answer.raw hdone), hwrites⟩
    · exact .inr ⟨by simpa [Answer.wrote] using hdone, hnothing⟩
  | nullable r =>
    obtain ⟨item, hnullable⟩ := h.nullable
    obtain ⟨hrun, hinv⟩ := hnullable.answer hs r
    rw [answer, Effect.run_map, hrun]
    refine ⟨hinv, ?_⟩
    rw [Request.writes, ← h.size_eq]
    rcases r.onState_cases a.nullable.size item (fun s p x => replace s p (x.getD null)) s with
      ⟨hdone, p, xs, hwrites, hle, hstate⟩ | ⟨hdone, hstate, hgt⟩
    · refine .inl ⟨.inr (congrArg Answer.nullable hdone), p, xs.map (·.getD null), ?_, ?_, ?_⟩
      · rw [hwrites]
        rfl
      · rwa [List.length_map]
      · rw [Channel.replaceEach_map]
        exact hstate
    · refine .inr ⟨by simpa [Answer.wrote] using hdone, hstate, fun p xs hwrites hle => ?_⟩
      obtain ⟨⟨p, xs⟩, hsome, heq⟩ := Option.map_eq_some_iff.1 hwrites
      cases heq
      exact hgt p xs hsome (by rwa [List.length_map] at hle)

/-- A request puts elements to their positions, in whatever way that describes the states. -/
theorem answer_puts (h : a.PlainBoth inv replace null) {R : σ → (Nat → Option α) → Prop}
    (hput : ∀ {s g p xs}, R s g → p + xs.length ≤ a.raw.size →
      R (replaceEach replace s p xs) fun q => (placed p xs q).or (g q))
    {g : Nat → Option α} (hs : inv s) (hR : R s g) (r : Request α) :
    R ((a.answer r).run s).state fun q => (r.puts a.raw.size null q).or (g q) := by
  rcases (h.answer_cases hs r).2 with ⟨-, p, xs, hwrites, hle, hstate⟩ | ⟨-, hstate, hgt⟩
  · rw [hstate]
    simp only [Request.puts_eq_placed hwrites hle]
    exact hput hR hle
  · rw [hstate]
    simp only [Request.puts_eq_none hgt, Option.none_or]
    exact hR

end PlainBoth

end Access

end Orthotope
