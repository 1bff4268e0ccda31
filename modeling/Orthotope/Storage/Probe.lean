import Orthotope.Channel

/-!
# Probes

A `Probe` is dense storage for observing how cubes use their storage. It logs every call and refuses
to read or write certain positions. A probe either has bulk transfers of its own, which move elements
one by one and stop at the first position refused, or leaves them to single calls.
-/

namespace Orthotope

/-- A call that a probe was asked to answer. -/
inductive Call where
  | get (pos : Nat)
  | set (pos : Nat)
  | read (pos count : Nat)
  | write (pos count : Nat)
  | readNullable (pos count : Nat)
  | writeNullable (pos count : Nat)
  | flush
  deriving DecidableEq, Repr

/-- Storage that logs its calls and refuses some positions. -/
structure Probe (α : Type) where
  items : Array α
  refused : List Nat
  bulk : Bool
  log : Array Call

namespace Probe

variable {α : Type}

/-- Logs a call. -/
def record (call : Call) : Act (Probe α) Unit :=
  Act.ofEffect (Effect.update fun p => { p with log := p.log.push call })

/-- Refuses the positions that are to be refused. -/
def admitted (pos : Nat) : Act (Probe α) Unit := do
  if ← Act.ofEffect (Effect.look (·.refused.contains pos)) then
    throw (.argument s!"position {pos} refused")

/-- Elements that are moved one by one, without a log. -/
def silent [Inhabited α] (size : Nat) : Channel (Probe α) α :=
  Channel.stepwise
    { size
      get := fun pos => do
        Act.ofExcept (checkPos size pos)
        admitted pos
        Act.ofEffect (Effect.look (·.items.getD pos default))
      set := fun pos x => do
        Act.ofExcept (checkPos size pos)
        admitted pos
        Act.ofEffect (Effect.update fun p => { p with items := p.items.setIfInBounds pos x })
      read := fun _ _ => pure (.done [])
      write := fun _ _ => pure () }

/-- Elements that are moved one by one, each call with a log. -/
def single [Inhabited α] (size : Nat) : Channel (Probe α) α :=
  Channel.stepwise
    { silent size with
      get := fun pos => do
        record (.get pos)
        (silent size).get pos
      set := fun pos x => do
        record (.set pos)
        (silent size).set pos x }

/-- Adds bulk transfers to a channel for probes that have them. `c` moves the elements, and `reading`
and `writing` are the calls to log. -/
def withBulk {β : Type} (c plain : Channel (Probe α) β) (reading writing : Nat → Nat → Call) :
    Channel (Probe α) β :=
  { plain with
    read := fun pos count => do
      if ← Effect.look (·.bulk) then
        let _ ← (record (reading pos count)).run
        c.read pos count
      else plain.read pos count
    write := fun pos xs => do
      if ← Act.ofEffect (Effect.look (·.bulk)) then
        record (writing pos xs.length)
        c.write pos xs
      else plain.write pos xs }

/-- Access to the elements of a cube of the given shape. A missing element is written as `null`. -/
def access [Inhabited α] (shape : List Nat) (null : α) : Access (Probe α) α :=
  let size := sizeOf shape
  { raw := withBulk (silent size) (single size) .read .write
    nullable := withBulk ((silent size).orNull null) ((single size).orNull null).stepwise
      .readNullable .writeNullable
    flush := do
      if ← Act.ofEffect (Effect.look (·.bulk)) then record .flush }

end Probe

end Orthotope
