import Orthotope.Proofs.Effect.Alike
import Orthotope.Workspace

/-!
# What sessions come to

`Session.outcome` is what a session comes to: its answer or failure and the store that it leaves. Serial
numbers and events are left out. Doing something with the elements of a cube comes to what the act
comes to (`Session.outcome_perform`). A copy first compares the shapes, which fails just if they differ
(`Channel.checkSameShape_eq_ok_iff`), and then comes to the copy of the elements
(`Session.outcome_copyFrom`). Nested lists become a leaf if they have a shape (`Session.run_ragged`).
-/

namespace Orthotope

variable {α : Type} {k : Kind}

theorem Channel.lengths_eq_ok_iff {axis : Nat} {expected actual : List Nat}
    (h : expected.length = actual.length) :
    checkSameShape.lengths axis expected actual = .ok () ↔ expected = actual := by
  induction expected generalizing axis actual with
  | nil =>
    obtain rfl := List.eq_nil_of_length_eq_zero h.symm
    exact iff_of_true rfl rfl
  | cons m ms ih =>
    cases actual with
    | nil => cases h
    | cons n ns =>
      rw [checkSameShape.lengths]
      split
      · next heq => rw [ih (Nat.succ.inj h), heq, List.cons_inj_right]
      · next hne =>
        refine iff_of_false (fun h => ?_) fun heq => hne (List.cons.inj heq).1
        cases h

/-- Two shapes are found to be the same just if they are. -/
theorem Channel.checkSameShape_eq_ok_iff {expected actual : List Nat} :
    checkSameShape expected actual = .ok () ↔ expected = actual := by
  rw [checkSameShape]
  split
  · next hne =>
    refine iff_of_false (fun h => ?_) fun heq => hne (congrArg List.length heq)
    cases h
  · next heq => exact lengths_eq_ok_iff (Decidable.not_not.1 heq)

namespace Session

section
variable {β : Type} {m : Session α} {f : α → Session β} {w v : Workspace}

theorem run_bind_of_ok {x : α} (h : m.run.run w = (.ok x, v)) :
    (m >>= f).run.run w = (f x).run.run v := by
  rw [ExceptT.run_bind, StateT.run_bind, h]
  rfl

theorem run_bind_of_error {e : Error} (h : m.run.run w = (.error e, v)) :
    (m >>= f).run.run w = (.error e, v) := by
  rw [ExceptT.run_bind, StateT.run_bind, h]
  rfl

end

/-- The answer or failure of a session and the store that it leaves. -/
def outcome (m : Session α) (w : Workspace) : Except Error α × Store :=
  ((m.run.run w).1, (m.run.run w).2.store)

theorem outcome_perform (a : Act Store α) (w : Workspace) :
    (perform a).outcome w = a.outcome w.store := by
  have hperform : perform a = observe a.run >>= fun value => ExceptT.mk (pure value) := by
    refine bind_congr fun value => ?_
    cases value <;> rfl
  rw [hperform]
  rfl

/-- If an act succeeds, so does the session that does it. -/
theorem run_perform {a : Act Store α} {w : Workspace} {x : α} {t : Store}
    (h : a.outcome w.store = (.ok x, t)) :
    ∃ v, (perform a).run.run w = (.ok x, v) ∧ v.store = t := by
  rw [← outcome_perform] at h
  obtain ⟨hvalue, hstore⟩ := Prod.mk.inj h
  exact ⟨_, Prod.ext hvalue rfl, hstore⟩

theorem outcome_copyFrom (c source : Cube k) (w : Workspace) :
    (copyFrom c source).outcome w =
      match Channel.checkSameShape c.shape source.shape with
      | .ok () => (c.elements.raw.copyFrom source.elements.raw).outcome w.store
      | .error e => (.error e, w.store) := by
  have hrun : copyFrom c source = liftM (Channel.checkSameShape c.shape source.shape) >>= fun _ =>
      perform (c.elements.raw.copyFrom source.elements.raw) := rfl
  rw [hrun]
  cases Channel.checkSameShape c.shape source.shape with
  | ok => exact outcome_perform ..
  | error e => rfl

/-- Nested lists become a leaf cube if they have a shape. -/
theorem run_ragged (items : Nested k.Elem) (w : Workspace) :
    (ragged k items).run.run w =
      match items.shape with
      | .ok shape => (leaf (Dimension.ofShape shape) (.ragged items : Leaf k)).run.run w
      | .error e => (.error e, w) := by
  show (liftM items.shape >>= fun shape =>
    leaf (Dimension.ofShape shape) (.ragged items : Leaf k)).run.run w = _
  rcases items.shape with e | shape <;> rfl

end Session

end Orthotope
