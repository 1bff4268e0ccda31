import Orthotope.Proofs.Channel.Like
import Orthotope.Proofs.Channel.Plain

/-!
# Channels that keep an invariant

A channel keeps an invariant if every request to it does, be it answered or refused
(`Channel.Keeps.answer`). That is a case of `Channel.ReadsLike` and `Channel.WritesLike`, of the channel
and itself over states of which the invariant holds, so that it passes through views and conversions
(`Access.Keeps.through`, `Access.Keeps.convert`). It also passes to the channels that move elements one
at a time and that take missing elements for null. Plain channels keep the invariant of their states
(`Channel.Plain.keeps`).
-/

namespace Orthotope

variable {σ α : Type} {I : σ → Prop}

namespace Channel

/-- Every request to the channel keeps an invariant. -/
structure Keeps (I : σ → Prop) (c : Channel σ α) : Prop where
  reads : c.ReadsLike (fun s t => s = t ∧ I s) id c
  writes : c.WritesLike (fun s t => s = t ∧ I s) id c

variable {c : Channel σ α}

theorem state_answer_get (c : Channel σ α) (p : Nat) (s : σ) :
    ((c.answer (.get p)).run s).state = ((c.get p).run.run s).state := by
  simp [answer]

theorem state_answer_set (c : Channel σ α) (p : Nat) (x : α) (s : σ) :
    ((c.answer (.set p x)).run s).state = ((c.set p x).run.run s).state := by
  simp [answer]

theorem state_answer_read (c : Channel σ α) (p : Nat) (buffer : List α) (s : σ) :
    ((c.answer (.read p buffer)).run s).state = ((c.read p buffer.length).run s).state := by
  simp [answer]

theorem state_answer_write (c : Channel σ α) (p : Nat) (xs : List α) (s : σ) :
    ((c.answer (.write p xs)).run s).state = ((c.write p xs).run.run s).state := by
  simp [answer]

/-- To keep an invariant is to keep it with every call. -/
theorem keeps_of_calls (hget : ∀ p s, I s → I ((c.get p).run.run s).state)
    (hset : ∀ p x s, I s → I ((c.set p x).run.run s).state)
    (hread : ∀ p n s, I s → I ((c.read p n).run s).state)
    (hwrite : ∀ p xs s, I s → I ((c.write p xs).run.run s).state) : c.Keeps I where
  reads :=
    { size := rfl
      get := by
        rintro p s t ⟨rfl, hs⟩
        exact ⟨congrFun Except.map_id _, rfl, hget p s hs⟩
      read := by
        rintro p n s t ⟨rfl, hs⟩
        exact ⟨by simp [Transfer.map], rfl, hread p n s hs⟩ }
  writes :=
    { size := rfl
      set := by
        rintro p x s t ⟨rfl, hs⟩
        exact ⟨rfl, rfl, hset p x s hs⟩
      write := by
        rintro p xs s t ⟨rfl, hs⟩
        rw [List.map_id]
        exact ⟨rfl, rfl, hwrite p xs s hs⟩ }

namespace Keeps

theorem get (h : c.Keeps I) {s : σ} (hs : I s) (p : Nat) : I ((c.get p).run.run s).state :=
  (h.reads.get p s s ⟨rfl, hs⟩).2.2

theorem set (h : c.Keeps I) {s : σ} (hs : I s) (p : Nat) (x : α) :
    I ((c.set p x).run.run s).state := (h.writes.set p x s s ⟨rfl, hs⟩).2.2

theorem read (h : c.Keeps I) {s : σ} (hs : I s) (p n : Nat) : I ((c.read p n).run s).state :=
  (h.reads.read p n s s ⟨rfl, hs⟩).2.2

theorem write (h : c.Keeps I) {s : σ} (hs : I s) (p : Nat) (xs : List α) :
    I ((c.write p xs).run.run s).state := by
  have hwrite := (h.writes.write p xs s s ⟨rfl, hs⟩).2.2
  rwa [List.map_id] at hwrite

/-- A request keeps the invariant. -/
theorem answer (h : c.Keeps I) {s : σ} (hs : I s) (r : Request α) :
    I ((c.answer r).run s).state := by
  cases r with
  | get p =>
    rw [state_answer_get]
    exact h.get hs p
  | set p x =>
    rw [state_answer_set]
    exact h.set hs p x
  | read p buffer =>
    rw [state_answer_read]
    exact h.read hs p buffer.length
  | write p xs =>
    rw [state_answer_write]
    exact h.write hs p xs

theorem through (h : c.Keeps I) (v : View) (logged : Bool) : (c.through v logged).Keeps I where
  reads := h.reads.through v logged logged
  writes := h.writes.through v logged logged

theorem convert {β : Type} (h : c.Keeps I) (into : α → β) (back : β → α)
    (log : Nat → Nat → List Event) : (c.convert into back log).Keeps I where
  reads := by
    have hid : ∀ x, id (into x) = into (id x) := fun _ => rfl
    exact h.reads.convert hid back back log log
  writes := by
    have hid : ∀ x, back (id x) = id (back x) := fun _ => rfl
    exact h.writes.convert hid into into log log

/-- A channel that keeps an invariant also does so if missing elements are taken for null. -/
theorem orNull (h : c.Keeps I) (null : α) : (c.orNull null).Keeps I := by
  refine keeps_of_calls (fun p s hs => ?_) (fun p x s hs => h.set hs p _) (fun p n s hs => ?_)
    fun p xs s hs => h.write hs p _
  · show I ((some <$> c.get p).run.run s).state
    rw [ExceptT.run_map, Effect.run_map]
    exact h.get hs p
  · show I ((Transfer.map some <$> c.read p n).run s).state
    rw [Effect.run_map]
    exact h.read hs p n

theorem readEach (h : c.Keeps I) {s : σ} (hs : I s) (p n : Nat) :
    I ((c.readEach p n).run s).state := by
  induction n generalizing s p with
  | zero => exact hs
  | succ n ih =>
    have hget := h.get hs p
    rw [Channel.readEach, Effect.run_bind]
    generalize (c.get p).run.run s = o at hget ⊢
    obtain ⟨value, events, s'⟩ := o
    cases value with
    | error e => exact hget
    | ok x => exact ih hget (p + 1)

theorem writeEach (h : c.Keeps I) {s : σ} (hs : I s) (p : Nat) (xs : List α) :
    I ((c.writeEach p xs).run.run s).state := by
  induction xs generalizing s p with
  | nil => exact hs
  | cons x xs ih =>
    have hset := h.set hs p x
    rw [run_writeEach_cons, Effect.run_bind]
    generalize (c.set p x).run.run s = o at hset ⊢
    obtain ⟨value, events, s'⟩ := o
    cases value with
    | error e => exact hset
    | ok => exact ih hset (p + 1)

/-- A channel that keeps an invariant also does so one element at a time. -/
theorem stepwise (h : c.Keeps I) : c.stepwise.Keeps I := by
  refine keeps_of_calls (fun p s hs => h.get hs p) (fun p x s hs => h.set hs p x)
    (fun p n s hs => ?_) fun p xs s hs => ?_
  · show I ((readWithin c.size p n (c.readEach p n)).run s).state
    rw [run_readWithin]
    split
    · exact h.readEach hs p n
    · exact hs
  · show I ((writeWithin c.size p xs.length (c.writeEach p xs)).run.run s).state
    rw [run_writeWithin]
    split
    · exact h.writeEach hs p xs
    · exact hs

end Keeps

/-- A plain channel keeps the invariant of its states. -/
theorem Plain.keeps {item : σ → Nat → α} {replace : σ → Nat → α → σ} (h : c.Plain I item replace) :
    c.Keeps I := by
  refine keeps_of_calls (fun p s hs => ?_) (fun p x s hs => ?_) (fun p n s hs => ?_)
    fun p xs s hs => ?_
  · rcases Nat.lt_or_ge p c.size with hp | hp
    · rwa [h.get hs hp]
    · rwa [h.get_error (Nat.not_lt.2 hp)]
  · rcases Nat.lt_or_ge p c.size with hp | hp
    · rw [h.set x hs hp]
      exact h.keep x hs hp
    · rwa [h.set_error (Nat.not_lt.2 hp)]
  · rcases Nat.lt_or_ge c.size (p + n) with hlt | hle
    · rwa [h.read_error (Nat.not_le.2 hlt)]
    · rwa [h.read hs hle]
  · rcases Nat.lt_or_ge c.size (p + xs.length) with hlt | hle
    · rwa [h.write_error (Nat.not_le.2 hlt)]
    · rw [h.write hs hle]
      exact h.keepEach hs hle

/-- Storage that only looks at its state and changes it keeps what the changes keep. -/
theorem keeps_ofState {size : Nat} {item : σ → Nat → α} {items : σ → Nat → Nat → List α}
    {replace : σ → Nat → α → σ} {overwrite : σ → Nat → List α → σ}
    (hreplace : ∀ {s} p x, I s → I (replace s p x))
    (hoverwrite : ∀ {s} p xs, I s → I (overwrite s p xs)) :
    (ofState size item items replace overwrite).Keeps I := by
  refine keeps_of_calls (fun p s hs => ?_) (fun p x s hs => ?_) (fun p n s hs => ?_)
    fun p xs s hs => ?_
  · simp only [ofState, run_checked]
    split <;> exact hs
  · simp only [ofState, run_checked]
    split
    · exact hreplace p x hs
    · exact hs
  · simp only [ofState, run_readWithin]
    split <;> exact hs
  · simp only [ofState, run_writeWithin]
    split
    · exact hoverwrite p xs hs
    · exact hs

end Channel

namespace Access

/-- Every request to either channel keeps an invariant. -/
structure Keeps (I : σ → Prop) (a : Access σ α) : Prop where
  raw : a.raw.Keeps I
  nullable : a.nullable.Keeps I

variable {a : Access σ α}

theorem Keeps.through (h : a.Keeps I) (v : View) : (a.through v).Keeps I :=
  ⟨h.raw.through v true, h.nullable.through v false⟩

theorem Keeps.convert {source : Kind} {a : Access σ source.Elem} (h : a.Keeps I) (target : Kind) :
    (a.convert target).Keeps I :=
  ⟨h.raw.convert .., h.nullable.convert ..⟩

/-- A request keeps the invariant. -/
theorem Keeps.answer (h : a.Keeps I) {s : σ} (hs : I s) (r : Request α) :
    I ((a.answer r).run s).state := by
  cases r with
  | raw r =>
    rw [Access.answer, Effect.run_map]
    exact h.raw.answer hs r
  | nullable r =>
    rw [Access.answer, Effect.run_map]
    exact h.nullable.answer hs r

end Access

end Orthotope
