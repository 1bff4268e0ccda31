import Orthotope.Channel

/-!
# Acts that do alike

`Act.outcome` is what an act comes to: its answer or failure and the state it leaves. The events that
it reports are left out, so that two ways of moving elements can be compared that report their work
differently. What `outcome` gives for each way to build an act is stated by a lemma.

`Act.Alike R` compares two acts up to a relation `R` between states: from related states they give
the same answer and leave related states. With equality for `R` this is equality of outcomes; a
coarser `R` looks only at part of the state, such as the elements that some storage holds. It passes
through sequences (`Act.Alike.bind`), which is all that a proof about a loop needs. If `R` is a
`Likeness`, acts that are alike can be put for one another (`Act.Alike.symm`, `Act.Alike.trans`).
-/

namespace Orthotope

/-- A relation between states that are not to be told apart. A state that it does not relate to itself is
left out. -/
structure Likeness {σ : Type} (R : σ → σ → Prop) : Prop where
  symm : ∀ {s t}, R s t → R t s
  trans : ∀ {s t u}, R s t → R t u → R s u

namespace Act

variable {σ α β : Type}

/-- The answer or failure of an act and the state that it leaves. -/
def outcome (a : Act σ α) (s : σ) : Except Error α × σ :=
  ((a.run.run s).value, (a.run.run s).state)

/-- Goes on with an outcome unless it is a failure. -/
def resume (f : α → σ → Except Error β × σ) : Except Error α × σ → Except Error β × σ
  | (.ok x, s) => f x s
  | (.error e, s) => (.error e, s)

@[simp] theorem resume_ok (f : α → σ → Except Error β × σ) (x : α) (s : σ) :
    resume f (.ok x, s) = f x s := rfl
@[simp] theorem resume_error (f : α → σ → Except Error β × σ) (e : Error) (s : σ) :
    resume f (.error e, s) = (.error e, s) := rfl

@[simp] theorem outcome_pure (x : α) (s : σ) : (pure x : Act σ α).outcome s = (.ok x, s) := rfl

@[simp] theorem outcome_ofExcept (x : Except Error α) (s : σ) :
    (ofExcept x : Act σ α).outcome s = (x, s) := rfl

@[simp] theorem outcome_ofEffect (e : Effect σ α) (s : σ) :
    (ofEffect e).outcome s = (.ok (e.run s).value, (e.run s).state) := rfl

@[simp] theorem outcome_bind (a : Act σ α) (f : α → Act σ β) (s : σ) :
    (a >>= f).outcome s = resume (fun x => (f x).outcome) (a.outcome s) := by
  have hrun : (a >>= f).run.run s = ((a.run >>= ExceptT.bindCont f).run s) := rfl
  unfold outcome
  rw [hrun, Effect.run_bind]
  cases h : (a.run.run s).value <;> rfl

@[simp] theorem outcome_map (f : α → β) (a : Act σ α) (s : σ) :
    (f <$> a).outcome s = ((a.outcome s).1.map f, (a.outcome s).2) := by
  rw [map_eq_pure_bind, outcome_bind]
  rcases a.outcome s with ⟨e | x, s'⟩ <;> rfl

/-! ## Alike up to a relation -/

/-- From related states, two acts give the same answer and leave related states. -/
def Alike (R : σ → σ → Prop) (a b : Act σ α) : Prop :=
  ∀ s t, R s t → (a.outcome s).1 = (b.outcome t).1 ∧ R (a.outcome s).2 (b.outcome t).2

variable {R : σ → σ → Prop} {a b : Act σ α}

/-- Only outcomes matter. -/
theorem Alike.congr {a' b' : Act σ α} (h : Alike R a b) (ha : a'.outcome = a.outcome)
    (hb : b'.outcome = b.outcome) : Alike R a' b' := by
  unfold Alike
  rw [ha, hb]
  exact h

theorem Alike.ofExcept (x : Except Error α) : Alike R (Act.ofExcept x) (Act.ofExcept x) :=
  fun _ _ hst => ⟨rfl, hst⟩

theorem Alike.pure (x : α) : Alike R (Pure.pure x) (Pure.pure x) := Alike.ofExcept (.ok x)

/-- Sequences of acts that are alike are alike. -/
theorem Alike.bind {f g : α → Act σ β} (h : Alike R a b) (hfg : ∀ x, Alike R (f x) (g x)) :
    Alike R (a >>= f) (b >>= g) := by
  intro s t hst
  obtain ⟨hvalue, hstate⟩ := h s t hst
  rw [outcome_bind, outcome_bind]
  generalize a.outcome s = o at hvalue hstate ⊢
  generalize b.outcome t = o' at hvalue hstate ⊢
  obtain ⟨x, s'⟩ := o
  obtain ⟨y, t'⟩ := o'
  obtain rfl : x = y := hvalue
  cases x with
  | error e => exact ⟨rfl, hstate⟩
  | ok x => exact hfg x s' t' hstate

theorem Alike.symm (hR : Likeness R) (h : Alike R a b) : Alike R b a := by
  intro s t hst
  obtain ⟨hvalue, hstate⟩ := h t s (hR.symm hst)
  exact ⟨hvalue.symm, hR.symm hstate⟩

theorem Alike.trans {c : Act σ α} (hR : Likeness R) (h : Alike R a b) (h' : Alike R b c) :
    Alike R a c := by
  intro s t hst
  obtain ⟨hvalue, hstate⟩ := h s t hst
  obtain ⟨hvalue', hstate'⟩ := h' t t (hR.trans (hR.symm hst) hst)
  exact ⟨hvalue.trans hvalue', hR.trans hstate hstate'⟩

/-- Equal outcomes are alike up to equality. -/
theorem alike_eq_iff : Alike (· = ·) a b ↔ a.outcome = b.outcome := by
  constructor
  · intro h
    funext s
    obtain ⟨hvalue, hstate⟩ := h s s rfl
    exact Prod.ext hvalue hstate
  · rintro h s t rfl
    rw [h]
    exact ⟨rfl, rfl⟩

end Act

end Orthotope
