import Orthotope.Error
import Orthotope.Event

/-!
# Effects

An `Effect σ α` reads and changes a state of type `σ`, reports diagnostic events and gives an answer.
The events are kept apart from the state, so that no effect can depend on what was reported before
it. An `Act σ α` is an effect that may fail; what it did to the state before it failed stays done.

`note` reports an event, `look` reads the state and `update` changes it. What `run` gives for each of
them, and for a sequence, is stated by a lemma.
-/

namespace Orthotope

/-- What an effect leaves behind. -/
structure Outcome (σ α : Type) where
  value : α
  events : List Event
  state : σ

/-- An effect on a state. -/
def Effect (σ α : Type) : Type := σ → Outcome σ α

/-- An effect that may fail. -/
abbrev Act (σ : Type) : Type → Type := ExceptT Error (Effect σ)

namespace Effect

variable {σ α β : Type}

/-- Runs an effect from a state. -/
def run (e : Effect σ α) (s : σ) : Outcome σ α := e s

@[ext]
theorem ext {e e' : Effect σ α} (h : ∀ s, e.run s = e'.run s) : e = e' := funext h

instance : Monad (Effect σ) where
  pure x := fun s => ⟨x, [], s⟩
  bind e f := fun s =>
    match e s with
    | ⟨value, events, state⟩ =>
      match f value state with
      | ⟨value, more, state⟩ => ⟨value, events ++ more, state⟩

@[simp]
theorem run_pure (x : α) (s : σ) : (pure x : Effect σ α).run s = ⟨x, [], s⟩ := rfl

@[simp]
theorem run_bind (e : Effect σ α) (f : α → Effect σ β) (s : σ) :
    (e >>= f).run s =
      ⟨((f (e.run s).value).run (e.run s).state).value,
        (e.run s).events ++ ((f (e.run s).value).run (e.run s).state).events,
        ((f (e.run s).value).run (e.run s).state).state⟩ := rfl

instance : LawfulMonad (Effect σ) :=
  LawfulMonad.mk' _
    (fun e => by
      funext s
      show (⟨(e s).value, (e s).events ++ [], (e s).state⟩ : Outcome _ _) = e s
      rw [List.append_nil])
    (fun x f => by ext s; simp)
    (fun e f g => by ext s; simp [List.append_assoc])

/-- Reports an event. -/
def note (event : Event) : Effect σ Unit := fun s => ⟨(), [event], s⟩

@[simp]
theorem run_note (event : Event) (s : σ) : (note event).run s = ⟨(), [event], s⟩ := rfl

/-- The present state. -/
def look (f : σ → α) : Effect σ α := fun s => ⟨f s, [], s⟩

@[simp]
theorem run_look (f : σ → α) (s : σ) : (look f).run s = ⟨f s, [], s⟩ := rfl

/-- Changes the state. -/
def update (f : σ → σ) : Effect σ Unit := fun s => ⟨(), [], f s⟩

@[simp]
theorem run_update (f : σ → σ) (s : σ) : (update f).run s = ⟨(), [], f s⟩ := rfl

end Effect

namespace Act

variable {σ α : Type}

/-- An answer or a failure that is known already. -/
def ofExcept (x : Except Error α) : Act σ α := ExceptT.mk (pure x)

/-- An effect that does not fail. -/
def ofEffect (e : Effect σ α) : Act σ α := ExceptT.lift e

end Act

end Orthotope
