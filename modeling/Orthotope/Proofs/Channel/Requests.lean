import Orthotope.Channel

/-!
# Requests and answers

What can be asked of a channel is a `Channel.Request`, and what comes back a `Channel.Answer`: the
result of the call and, for a bulk read, the buffer as the call leaves it. An access has two channels,
so that an `Access.Request` also says which one is meant.

A reference for an access is a function that answers a request and goes from one state to the next.
If an access does as its reference in one request, it does so in any number of them, one after the
other (`Access.answers_refine`). The plainest reference is a flat list of elements
(`Access.Request.onList`).
-/

namespace Orthotope

variable {σ τ α β : Type}

@[simp] theorem Effect.run_map (f : α → β) (e : Effect σ α) (s : σ) :
    (f <$> e).run s = ⟨f (e.run s).value, (e.run s).events, (e.run s).state⟩ := by
  rw [map_eq_pure_bind, Effect.run_bind]
  simp

/-- The failure of a request for more positions than there are. -/
def outOfRange (size pos count : Nat) : Error := .position (min (pos + count) maxPosition) size

namespace Channel

/-- A request to a channel. -/
inductive Request (α : Type) where
  | get (pos : Nat)
  | set (pos : Nat) (x : α)
  | read (pos : Nat) (buffer : List α)
  | write (pos : Nat) (xs : List α)

/-- What comes back from a channel. -/
inductive Answer (α : Type) where
  /-- The element that was asked for. -/
  | item (result : Except Error α)
  /-- Whether the writing was done. -/
  | done (result : Except Error Unit)
  /-- Whether the reading was done, and the buffer for it as it is left. -/
  | buffer (result : Except Error Unit) (contents : List α)

/-- Puts a request to a channel. -/
def answer (c : Channel σ α) : Request α → Effect σ (Answer α)
  | .get p => .item <$> (c.get p).run
  | .set p x => .done <$> (c.set p x).run
  | .read p buffer => (fun t => .buffer t.result (t.into buffer)) <$> c.read p buffer.length
  | .write p xs => .done <$> (c.write p xs).run

/-- What a flat list answers to a request, and the list that it becomes. `shown` is how its elements
are given out and `kept` how elements are put into it. -/
def Request.onList (shown : β → α) (kept : α → β) (xs : List β) : Request α → Answer α × List β
  | .get p =>
    match xs[p]? with
    | some x => (.item (.ok (shown x)), xs)
    | none => (.item (.error (.position p xs.length)), xs)
  | .set p x =>
    if p < xs.length then (.done (.ok ()), xs.set p (kept x))
    else (.done (.error (.position p xs.length)), xs)
  | .read p buffer =>
    if p + buffer.length ≤ xs.length then
      (.buffer (.ok ()) (((xs.drop p).take buffer.length).map shown), xs)
    else (.buffer (.error (outOfRange xs.length p buffer.length)) buffer, xs)
  | .write p ys =>
    if p + ys.length ≤ xs.length then
      (.done (.ok ()), xs.take p ++ ys.map kept ++ xs.drop (p + ys.length))
    else (.done (.error (outOfRange xs.length p ys.length)), xs)

/-- Requests leave a list as long as it is. -/
theorem Request.length_onList (shown : β → α) (kept : α → β) (xs : List β) (r : Request α) :
    (r.onList shown kept xs).2.length = xs.length := by
  cases r with
  | get p =>
    simp only [Request.onList]
    split <;> rfl
  | set p x =>
    simp only [Request.onList]
    split
    · exact List.length_set
    · rfl
  | read p buffer =>
    simp only [Request.onList]
    split <;> rfl
  | write p ys =>
    simp only [Request.onList]
    split
    · simp
      omega
    · rfl

end Channel

namespace Access

/-- A request to one of the channels of a cube. -/
inductive Request (α : Type) where
  | raw (r : Channel.Request α)
  | nullable (r : Channel.Request (Option α))

/-- What comes back from one of the channels of a cube. -/
inductive Answer (α : Type) where
  | raw (a : Channel.Answer α)
  | nullable (a : Channel.Answer (Option α))

/-- Puts a request to a cube. -/
def answer (a : Access σ α) : Request α → Effect σ (Answer α)
  | .raw r => .raw <$> a.raw.answer r
  | .nullable r => .nullable <$> a.nullable.answer r

/-- Puts requests to a cube, one after the other. -/
def answers (a : Access σ α) : List (Request α) → Effect σ (List (Answer α))
  | [] => pure []
  | r :: rs => do return (← a.answer r) :: (← a.answers rs)

/-- What a flat list of elements answers, and the list that it becomes. No element is missing from it,
and a missing one is put into it as `null`. -/
def Request.onList (null : α) (xs : List α) : Request α → Answer α × List α
  | .raw r => (.raw (r.onList id id xs).1, (r.onList id id xs).2)
  | .nullable r =>
    (.nullable (r.onList some (·.getD null) xs).1, (r.onList some (·.getD null) xs).2)

theorem Request.length_onList (null : α) (xs : List α) (r : Access.Request α) :
    (r.onList null xs).2.length = xs.length := by
  cases r with
  | raw r => exact r.length_onList id id xs
  | nullable r => exact r.length_onList some (·.getD null) xs

/-- What a reference answers to requests, one after the other, and the state that it comes to. -/
def refer (step : τ → Request α → Answer α × τ) (t : τ) : List (Request α) → List (Answer α) × τ
  | [] => ([], t)
  | r :: rs =>
    let (first, t) := step t r
    let (others, t) := refer step t rs
    (first :: others, t)

/-- If every request is answered as by a reference, and keeps the relation to its state, so is every
list of requests. -/
theorem answers_refine {a : Access σ α} {R : σ → τ → Prop} {step : τ → Request α → Answer α × τ}
    (h : ∀ {s t} r, R s t → ((a.answer r).run s).value = (step t r).1 ∧
      R ((a.answer r).run s).state (step t r).2)
    (requests : List (Request α)) {s : σ} {t : τ} (hst : R s t) :
    ((a.answers requests).run s).value = (refer step t requests).1 ∧
      R ((a.answers requests).run s).state (refer step t requests).2 := by
  induction requests generalizing s t with
  | nil => exact ⟨rfl, hst⟩
  | cons r rs ih =>
    obtain ⟨hvalue, hstate⟩ := h r hst
    obtain ⟨hvalues, hstates⟩ := ih hstate
    exact ⟨congr (congrArg List.cons hvalue) hvalues, hstates⟩

end Access

end Orthotope
