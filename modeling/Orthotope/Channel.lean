import Orthotope.Effect
import Orthotope.Element
import Orthotope.View

/-!
# Channels

A `Channel σ α` gives access to a sequence of elements of type `α` that is kept in a state of type `σ`.
It reads and writes one element (`get`, `set`) and moves many at a time (`read`, `write`). A read that
fails part way still hands over the elements before the failure: the answer is a `Transfer`.

`Channel.stepwise` is the plain way to move many elements: check the range, then take one position
after the other and stop at the first failure. Other channels have faster ways and agree with it.

`Channel.through` puts a view in front of a channel and `Channel.convert` a change of the elements.
Neither copies anything. An `Access` is the pair of channels of a cube: on the `raw` channel a missing
element has a value like any other, on the `nullable` channel it is `none`.
-/

namespace Orthotope

variable {σ τ α β : Type}

/-- What a bulk read hands over: the elements moved, and whether they are all. -/
structure Transfer (α : Type) where
  items : List α
  result : Except Error Unit

namespace Transfer

/-- A read that is complete. -/
def done (items : List α) : Transfer α := ⟨items, .ok ()⟩

/-- A read that fails before any element. -/
def failed (e : Error) : Transfer α := ⟨[], .error e⟩

/-- Puts elements that were read before in front. -/
def after (items : List α) (t : Transfer α) : Transfer α := ⟨items ++ t.items, t.result⟩

/-- Changes the elements. -/
def map (f : α → β) (t : Transfer α) : Transfer β := ⟨t.items.map f, t.result⟩

/-- A buffer of the given elements into which the transfer was made. -/
def into (t : Transfer α) (buffer : List α) : List α := t.items ++ buffer.drop t.items.length

end Transfer

/-- Access to the elements of a cube at their flat positions. -/
structure Channel (σ α : Type) where
  /-- The number of positions. -/
  size : Nat
  /-- The element at a position. -/
  get : Nat → Act σ α
  /-- Replaces the element at a position. -/
  set : Nat → α → Act σ Unit
  /-- Reads as many elements as asked, from a position on. -/
  read : Nat → Nat → Effect σ (Transfer α)
  /-- Writes elements from a position on. -/
  write : Nat → List α → Act σ Unit

/-- A bulk read of a channel with `size` positions, made only if the range is within them. -/
def readWithin (size pos count : Nat) (body : Effect σ (Transfer α)) : Effect σ (Transfer α) :=
  match checkRange size pos count with
  | .ok () => body
  | .error e => pure (.failed e)

/-- A bulk write of a channel with `size` positions, made only if the range is within them. -/
def writeWithin (size pos count : Nat) (body : Act σ Unit) : Act σ Unit := do
  Act.ofExcept (checkRange size pos count)
  body

namespace Channel

/-! ## One element at a time -/

/-- Reads one position after the other and stops at the first failure. -/
def readEach (c : Channel σ α) (pos : Nat) : (count : Nat) → Effect σ (Transfer α)
  | 0 => pure (.done [])
  | count + 1 => do
    match ← (c.get pos).run with
    | .error e => return .failed e
    | .ok x => return .after [x] (← c.readEach (pos + 1) count)

/-- Writes one position after the other and stops at the first failure. -/
def writeEach (c : Channel σ α) (pos : Nat) : List α → Act σ Unit
  | [] => pure ()
  | x :: xs => do
    c.set pos x
    c.writeEach (pos + 1) xs

/-- The same elements, moved one at a time. -/
def stepwise (c : Channel σ α) : Channel σ α where
  size := c.size
  get := c.get
  set := c.set
  read pos count := readWithin c.size pos count (c.readEach pos count)
  write pos xs := writeWithin c.size pos xs.length (c.writeEach pos xs)

@[simp]
theorem size_stepwise (c : Channel σ α) : c.stepwise.size = c.size := rfl

/-! ## Whole requests -/

/-- Reads a span and fails if it cannot be read completely. -/
def readSpan (c : Channel σ α) (s : Span) : Act σ (List α) := do
  let t ← Act.ofEffect (c.read s.start s.length)
  Act.ofExcept t.result
  return t.items

/-! ## Views -/

/-- Reads the runs of a view, one after the other, and stops at the first failure. -/
def readRuns (c : Channel σ α) : List View.Run → Effect σ (Transfer α)
  | [] => pure (.done [])
  | r :: rest => do
    let t ← c.read r.inner r.span.length
    match t.result with
    | .error _ => return t
    | .ok () => return .after t.items (← c.readRuns rest)

/-- Writes elements to the runs of a view, one after the other, and stops at the first failure. -/
def writeRuns (c : Channel σ α) : List View.Run → List α → Act σ Unit
  | [], _ => pure ()
  | r :: rest, xs => do
    c.write r.inner (xs.take r.span.length)
    c.writeRuns rest (xs.drop r.span.length)

/-- The channel as a view presents it. Bulk transfers are reported if `logged`. -/
def through (c : Channel σ α) (v : View) (logged : Bool) : Channel σ α where
  size := v.size
  get pos := do
    Act.ofExcept (checkPos v.size pos)
    c.get (v.position pos)
  set pos x := do
    Act.ofExcept (checkPos v.size pos)
    c.set (v.position pos) x
  read pos count := readWithin v.size pos count do
    if logged then Effect.note (.flattened v.transform.name pos count)
    c.readRuns (v.runs pos count)
  write pos xs := writeWithin v.size pos xs.length do
    if logged then Act.ofEffect (Effect.note (.unflattened v.transform.name pos xs.length))
    c.writeRuns (v.runs pos xs.length) xs

@[simp]
theorem size_through (c : Channel σ α) (v : View) (logged : Bool) :
    (c.through v logged).size = v.size := rfl

/-! ## Conversions -/

/-- Reads blocks and converts each once it is read completely. -/
def readBlocks (c : Channel σ β) (into : β → α) : List Span → Effect σ (Transfer α)
  | [] => pure (.done [])
  | s :: rest => do
    match ← (c.readSpan s).run with
    | .error e => return .failed e
    | .ok xs => return .after (xs.map into) (← c.readBlocks into rest)

/-- Converts elements and writes them block by block. -/
def writeBlocks (c : Channel σ β) (back : α → β) : List Span → List α → Act σ Unit
  | [], _ => pure ()
  | s :: rest, xs => do
    c.write s.start ((xs.take s.length).map back)
    c.writeBlocks back rest (xs.drop s.length)

/-- The channel with each element changed by `into` when it is read and by `back` when it is written.
Bulk transfers go through a buffer of one block; bulk reads are reported as `log` says. -/
def convert (c : Channel σ β) (into : β → α) (back : α → β) (log : Nat → Nat → List Event) :
    Channel σ α where
  size := c.size
  get pos := into <$> c.get pos
  set pos x := c.set pos (back x)
  read pos count := readWithin c.size pos count do
    (log pos count).forM Effect.note
    c.readBlocks into (blocks pos count)
  write pos xs := writeWithin c.size pos xs.length do
    c.writeBlocks back (blocks pos xs.length) xs

@[simp]
theorem size_convert (c : Channel σ β) (into : β → α) (back : α → β)
    (log : Nat → Nat → List Event) : (c.convert into back log).size = c.size := rfl

/-! ## Missing elements -/

/-- A channel whose elements are never missing, as a nullable channel. A missing element is written as
`null`. -/
def orNull (c : Channel σ α) (null : α) : Channel σ (Option α) where
  size := c.size
  get pos := some <$> c.get pos
  set pos x := c.set pos (x.getD null)
  read pos count := Transfer.map some <$> c.read pos count
  write pos xs := c.write pos (xs.map (·.getD null))

@[simp]
theorem size_orNull (c : Channel σ α) (null : α) : (c.orNull null).size = c.size := rfl

end Channel

/-- The channels of a cube. -/
structure Access (σ α : Type) where
  /-- Elements, a missing one having a value. -/
  raw : Channel σ α
  /-- Elements, or `none` for a missing one. -/
  nullable : Channel σ (Option α)
  /-- Carries pending changes to the medium that keeps the elements. -/
  flush : Act σ Unit

namespace Access

/-- The cube as a view presents it. -/
def through (a : Access σ α) (v : View) : Access σ α where
  raw := a.raw.through v true
  nullable := a.nullable.through v false
  flush := a.flush

/-- The cube with its elements converted to another kind. Missing elements stay missing. -/
def convert {source : Kind} (a : Access σ source.Elem) (target : Kind) : Access σ target.Elem where
  raw := a.raw.convert (source.convert target) (target.convert source)
    fun pos count => [.converted source.name target.name pos count]
  nullable := a.nullable.convert (·.map (source.convert target)) (·.map (target.convert source))
    fun _ _ => []
  flush := a.flush

/-- The cube with all bulk transfers made one element at a time. -/
def stepwise (a : Access σ α) : Access σ α where
  raw := a.raw.stepwise
  nullable := a.nullable.stepwise
  flush := a.flush

end Access

end Orthotope
