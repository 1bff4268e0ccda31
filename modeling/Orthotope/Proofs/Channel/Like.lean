import Orthotope.Proofs.Effect.Alike

/-!
# Channels that do like one another

Two channels over the same states may give out the same elements in different forms, as the raw and the
nullable channel of a cube do. `Channel.ReadsLike R f c d` says that what `c` gives out, changed by
`f`, is what `d` gives out, and `Channel.WritesLike R g c d` that putting elements changed by `g` into
`c` does what putting them into `d` does. As in `Act.Alike`, states are compared up to a relation `R`.
Bulk reads are compared with all that they hand over, also before a failure.

Both pass through views and through conversions (`Channel.ReadsLike.through`,
`Channel.WritesLike.convert` and so on), whatever the view or the conversion is: the layers only pass
requests on. That a channel keeps an invariant is the same notion for the channel and itself
(`Channel.Keeps`).
-/

namespace Orthotope

variable {σ α β γ δ : Type} {R : σ → σ → Prop}

namespace Effect

/-- From related states, the answer of one effect changed by `f` is that of another, and related states
are left. -/
def Like (R : σ → σ → Prop) (f : α → β) (e : Effect σ α) (e' : Effect σ β) : Prop :=
  ∀ s t, R s t → f (e.run s).value = (e'.run t).value ∧ R (e.run s).state (e'.run t).state

variable {f : α → β} {e : Effect σ α} {e' : Effect σ β}

theorem Like.pure {x : α} {y : β} (h : f x = y) :
    Like R f (Pure.pure x : Effect σ α) (Pure.pure y) := fun _ _ hst => ⟨h, hst⟩

theorem Like.bind {g : γ → δ} {k : α → Effect σ γ} {k' : β → Effect σ δ} (h : Like R f e e')
    (hk : ∀ x, Like R g (k x) (k' (f x))) : Like R g (e >>= k) (e' >>= k') := by
  intro s t hst
  obtain ⟨hvalue, hstate⟩ := h s t hst
  rw [run_bind, run_bind, ← hvalue]
  exact hk _ _ _ hstate

/-- Reports in front do not matter. -/
theorem Like.after_notes (events events' : List Event) (h : Like R f e e') :
    Like R f
      (do
        events.forM note
        e)
      (do
        events'.forM note
        e') := by
  have hnotes : ∀ (events : List Event) (s : σ), (events.forM note).run s = ⟨(), events, s⟩ := by
    intro events s
    induction events with
    | nil => rfl
    | cons event events ih =>
      show (note event >>= fun _ => events.forM note).run s = _
      rw [run_bind, run_note, ih]
      rfl
  intro s t hst
  rw [run_bind, run_bind, hnotes, hnotes]
  exact h s t hst

/-- A report in front that need not be made does not matter. -/
theorem Like.after_note (logged logged' : Bool) (event event' : Event) (h : Like R f e e') :
    Like R f
      (do
        if logged then note event
        e)
      (do
        if logged' then note event'
        e') := by
  intro s t hst
  cases logged <;> cases logged' <;> exact h s t hst

end Effect

namespace Act

variable {a : Act σ α} {b : Act σ β} {f : α → β}

/-- What is compared for an act is its answer or failure. -/
def Like (R : σ → σ → Prop) (f : α → β) (a : Act σ α) (b : Act σ β) : Prop :=
  Effect.Like R (Except.map f) a.run b.run

theorem Like.bind {g : γ → δ} {k : α → Act σ γ} {k' : β → Act σ δ} (h : Like R f a b)
    (hk : ∀ x, Like R g (k x) (k' (f x))) : Like R g (a >>= k) (b >>= k') := by
  show Effect.Like R _ (a.run >>= ExceptT.bindCont k) (b.run >>= ExceptT.bindCont k')
  refine Effect.Like.bind h fun x => ?_
  cases x with
  | error e => exact Effect.Like.pure rfl
  | ok x => exact hk x

theorem Like.ofEffect {e : Effect σ α} {e' : Effect σ β} (h : Effect.Like R f e e') :
    Like R f (ofEffect e) (ofEffect e') := fun s t hst =>
  ⟨congrArg Except.ok (h s t hst).1, (h s t hst).2⟩

/-- A check in front, made alike. -/
theorem Like.checked (x : Except Error Unit) (h : Like R f a b) :
    Like R f (do ofExcept x; a) (do ofExcept x; b) := by
  cases x with
  | error e => exact Effect.Like.pure rfl
  | ok => exact h

theorem Like.map {g : γ → δ} {into : α → γ} {into' : β → δ} (h : Like R f a b)
    (hinto : ∀ x, g (into x) = into' (f x)) : Like R g (into <$> a) (into' <$> b) := by
  rw [map_eq_pure_bind, map_eq_pure_bind]
  exact h.bind fun x => Effect.Like.pure (congrArg Except.ok (hinto x))

end Act

namespace Channel

/-! ## Reading -/

/-- What `c` gives out, changed by `f`, is what `d` gives out. -/
structure ReadsLike (R : σ → σ → Prop) (f : α → β) (c : Channel σ α) (d : Channel σ β) : Prop where
  size : c.size = d.size
  get : ∀ p, Act.Like R f (c.get p) (d.get p)
  read : ∀ p n, Effect.Like R (Transfer.map f) (c.read p n) (d.read p n)

section
variable {f : α → β} {c : Channel σ α} {d : Channel σ β}

theorem like_readWithin (size p n : Nat) {e : Effect σ (Transfer α)} {e' : Effect σ (Transfer β)}
    (h : Effect.Like R (Transfer.map f) e e') :
    Effect.Like R (Transfer.map f) (readWithin size p n e) (readWithin size p n e') := by
  unfold readWithin
  cases checkRange size p n with
  | error e => exact Effect.Like.pure rfl
  | ok => exact h

/-- A transfer with elements in front, changed. -/
theorem map_after (f : α → β) (xs : List α) (t : Transfer α) :
    (t.after xs).map f = (t.map f).after (xs.map f) := by
  simp [Transfer.after, Transfer.map]

theorem ReadsLike.readRuns (h : c.ReadsLike R f d) (runs : List View.Run) :
    Effect.Like R (Transfer.map f) (c.readRuns runs) (d.readRuns runs) := by
  induction runs with
  | nil => exact Effect.Like.pure rfl
  | cons run runs ih =>
    refine (h.read run.inner run.span.length).bind fun t => ?_
    obtain ⟨items, result⟩ := t
    cases result with
    | error e => exact Effect.Like.pure rfl
    | ok => exact ih.bind fun t => Effect.Like.pure (map_after f items t)

theorem ReadsLike.through (h : c.ReadsLike R f d) (v : View) (logged logged' : Bool) :
    (c.through v logged).ReadsLike R f (d.through v logged') where
  size := rfl
  get _ := Act.Like.checked _ (h.get _)
  read p n := like_readWithin _ p n ((h.readRuns _).after_note logged logged' _ _)

theorem ReadsLike.readSpan (h : c.ReadsLike R f d) (s : Span) :
    Act.Like R (List.map f) (c.readSpan s) (d.readSpan s) := by
  refine (Act.Like.ofEffect (h.read s.start s.length)).bind fun t => ?_
  rcases t with ⟨items, e | u⟩ <;> exact Effect.Like.pure rfl

variable {f' : γ → δ} {into : α → γ} {into' : β → δ}

theorem ReadsLike.readBlocks (h : c.ReadsLike R f d) (hinto : ∀ x, f' (into x) = into' (f x))
    (spans : List Span) :
    Effect.Like R (Transfer.map f') (c.readBlocks into spans) (d.readBlocks into' spans) := by
  induction spans with
  | nil => exact Effect.Like.pure rfl
  | cons s spans ih =>
    refine Effect.Like.bind (h.readSpan s) fun xs => ?_
    cases xs with
    | error e => exact Effect.Like.pure rfl
    | ok xs =>
      refine ih.bind fun t => Effect.Like.pure ?_
      rw [map_after, List.map_map, List.map_map]
      exact congrArg (Transfer.after · _) (List.map_congr_left fun x _ => hinto x)

theorem ReadsLike.convert (h : c.ReadsLike R f d) (hinto : ∀ x, f' (into x) = into' (f x))
    (back : γ → α) (back' : δ → β) (log log' : Nat → Nat → List Event) :
    (c.convert into back log).ReadsLike R f' (d.convert into' back' log') where
  size := h.size
  get p := (h.get p).map hinto
  read p n := by
    have hbody := (h.readBlocks hinto (blocks p n)).after_notes (log p n) (log' p n)
    show Effect.Like R _ (readWithin c.size p n _) (readWithin d.size p n _)
    rw [h.size]
    exact like_readWithin _ p n hbody

end

/-! ## Writing -/

/-- Putting elements changed by `g` into `c` does what putting them into `d` does. -/
structure WritesLike (R : σ → σ → Prop) (g : β → α) (c : Channel σ α) (d : Channel σ β) : Prop where
  size : c.size = d.size
  set : ∀ p x, Act.Alike R (c.set p (g x)) (d.set p x)
  write : ∀ p xs, Act.Alike R (c.write p (xs.map g)) (d.write p xs)

section
variable {g : β → α} {c : Channel σ α} {d : Channel σ β}

theorem alike_checked (x : Except Error Unit) {a b : Act σ α} (h : Act.Alike R a b) :
    Act.Alike R (do Act.ofExcept x; a) (do Act.ofExcept x; b) :=
  (Act.Alike.ofExcept x).bind fun _ => h

theorem WritesLike.writeRuns (h : c.WritesLike R g d) (runs : List View.Run) (xs : List β) :
    Act.Alike R (c.writeRuns runs (xs.map g)) (d.writeRuns runs xs) := by
  induction runs generalizing xs with
  | nil => exact Act.Alike.pure ()
  | cons run runs ih =>
    rw [Channel.writeRuns, ← List.map_take, ← List.map_drop]
    exact (h.write _ _).bind fun _ => ih _

theorem WritesLike.through (h : c.WritesLike R g d) (v : View) (logged logged' : Bool) :
    (c.through v logged).WritesLike R g (d.through v logged') where
  size := rfl
  set p x := alike_checked _ (h.set _ x)
  write p xs := by
    show Act.Alike R (writeWithin v.size p (xs.map g).length (do
      if logged then Act.ofEffect (Effect.note (.unflattened v.transform.name p (xs.map g).length))
      c.writeRuns (v.runs p (xs.map g).length) (xs.map g))) _
    rw [List.length_map]
    refine alike_checked _ ((h.writeRuns (v.runs p xs.length) xs).congr ?_ ?_)
    · cases logged <;> rfl
    · cases logged' <;> rfl

variable {g' : δ → γ} {back : γ → α} {back' : δ → β}

theorem WritesLike.writeBlocks (h : c.WritesLike R g d) (hback : ∀ x, back (g' x) = g (back' x))
    (spans : List Span) (xs : List δ) :
    Act.Alike R (c.writeBlocks back spans (xs.map g')) (d.writeBlocks back' spans xs) := by
  induction spans generalizing xs with
  | nil => exact Act.Alike.pure ()
  | cons s spans ih =>
    have hchange : ((xs.map g').take s.length).map back = ((xs.take s.length).map back').map g := by
      rw [← List.map_take, List.map_map, List.map_map]
      exact List.map_congr_left fun x _ => hback x
    rw [Channel.writeBlocks, hchange, ← List.map_drop]
    exact (h.write _ _).bind fun _ => ih _

theorem WritesLike.convert (h : c.WritesLike R g d) (hback : ∀ x, back (g' x) = g (back' x))
    (into : α → γ) (into' : β → δ) (log log' : Nat → Nat → List Event) :
    (c.convert into back log).WritesLike R g' (d.convert into' back' log') where
  size := h.size
  set p x := by
    show Act.Alike R (c.set p (back (g' x))) (d.set p (back' x))
    rw [hback]
    exact h.set p (back' x)
  write p xs := by
    show Act.Alike R (writeWithin c.size p (xs.map g').length
      (c.writeBlocks back (blocks p (xs.map g').length) (xs.map g')))
      (writeWithin d.size p xs.length (d.writeBlocks back' (blocks p xs.length) xs))
    rw [List.length_map, h.size]
    exact alike_checked _ (h.writeBlocks hback _ xs)

end

end Channel

end Orthotope
