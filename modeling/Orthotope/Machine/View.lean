import Orthotope.Cube
import Orthotope.Machine.Layout

/-!
# Views as they are computed

The positions and runs of a view, computed step by step in a given arithmetic, and the channels that
move elements with them. Places in tables, differences and remainders are checked like those of
`Orthotope.Machine.Layout`.

A bulk transfer finds the runs of its request one by one and moves each before it looks for the next
one. A run of no positions would bring that to a standstill, and one that goes beyond the request has no
elements to move: both are misuses.
-/

namespace Orthotope

variable {σ α : Type} {k : Kind}

/-- The position on a circle of `length` positions that lies `shift` before position `i`. -/
def unrollIn (m : Arithmetic) (i shift length : Nat) : Except Error Nat := do
  if shift ≤ i then m.sub i shift else m.sub (← m.add i length) shift

/-- The coordinates beneath a roll of each axis. -/
def unrollAxesIn (m : Arithmetic) : List Nat → List Nat → List Nat → Except Error (List Nat)
  | i :: coords, s :: shifts, n :: shape => do
    let first ← unrollIn m i s n
    return first :: (← unrollAxesIn m coords shifts shape)
  | _, _, _ => .ok []

/-- The coordinates beneath a slice. There must be a coordinate for each range. -/
def AxisSlice.placeIn (m : Arithmetic) : List AxisSlice → List Nat → Except Error (List Nat)
  | [], _ => .ok []
  | fixed c :: axes, coords => do return c :: (← placeIn m axes coords)
  | range start step _ :: axes, i :: coords => do
    let first ← m.add start (← m.mul i step)
    return first :: (← placeIn m axes coords)
  | range .. :: _, [] => .error (.misuse .entry)

/-- The number of entries from `i` on that each exceed the one before by one, at most `left` of
them. -/
def stretchIn (m : Arithmetic) (positions : Array Nat) (i : Nat) : (left : Nat) → Except Error Nat
  | 0 => .ok 0
  | 1 => .ok 1
  | left + 2 => do
    let next ← entryOf positions (i + 1)
    let this ← entryOf positions i
    if next = (← m.add this 1) then return (← stretchIn m positions (i + 1) (left + 1)) + 1
    return 1

namespace View

/-- The coordinates beneath that the coordinates of a view show. -/
def coordsIn (m : Arithmetic) (v : View) (cs : List Nat) : Except Error (List Nat) :=
  match v.transform with
  | .transposed => .ok cs.reverse
  | .sliced axes => AxisSlice.placeIn m axes cs
  | .rolled shifts => unrollAxesIn m cs shifts v.shape
  | .masked positions =>
    match cs with
    | i :: rest => do return (← entryOf positions i) :: rest
    | [] => .ok []
  | .flatRolled _ | .reshaped => .ok cs

/-- The flat position beneath that a position of a view shows. `size` is the size that the view stores. -/
def positionIn (m : Arithmetic) (v : View) (size p : Nat) : Except Error Nat :=
  match v.transform with
  | .flatRolled shift => unrollIn m p shift size
  | .reshaped => .ok p
  | _ => do
    let (cs, _) ← unravelGuarded v.shape p
    offsetIn m v.source (← v.coordsIn m cs)

/-- The number of positions in the row of the last axis from the coordinates `cs` on, at most
`left`. -/
def rowLeftIn (m : Arithmetic) (v : View) (cs : List Nat) (left : Nat) : Except Error Nat :=
  if v.shape.length = 0 then .ok left
  else do
    let n ← entry v.shape (v.shape.length - 1)
    let i ← entry cs (v.shape.length - 1)
    return min left (← m.sub n i)

/-- The number of positions from `p` on that are consecutive beneath as well, at most `left`. -/
def reachIn (m : Arithmetic) (v : View) (size p left : Nat) : Except Error Nat :=
  match v.transform with
  | .flatRolled _ => do return min left (← m.sub size (← v.positionIn m size p))
  | .reshaped => .ok left
  | .transposed => .ok 1
  | .rolled shifts => do
    let (cs, _) ← unravelGuarded v.shape p
    if v.shape.length = 0 then return left
    let i ← entry cs (v.shape.length - 1)
    let shift ← entry shifts (v.shape.length - 1)
    if shift ≤ i then v.rowLeftIn m cs left
    else return min left (← m.sub shift i)
  | .sliced axes =>
    match axes.getLast? with
    | some (.fixed _) => .ok 1
    | some (.range _ step _) =>
      if step = 1 then do
        let (cs, _) ← unravelGuarded v.shape p
        v.rowLeftIn m cs left
      else .ok 1
    | none => .ok left
  | .masked positions =>
    if v.shape.length = 1 then stretchIn m positions p left
    else do
      let (cs, _) ← unravelGuarded v.shape p
      v.rowLeftIn m cs left

/-- The next run of a request of `len` positions from `p` on, of which `done` are done, with the offsets
in the request that it covers. -/
def nextRun (m : Arithmetic) (v : View) (size p len done : Nat) : Except Error Run := do
  let next ← m.add p done
  let inner ← v.positionIn m size next
  let run ← v.reachIn m size next (len - done)
  if run = 0 then throw (.misuse .standstill)
  if len - done < run then throw (.misuse .entry)
  return ⟨inner, done, run⟩

/-- Goes through a request of `len` positions from `p` on, of which `done` are done. The next run is
found, and given to `visit` with the offsets in the request that it covers. A visit that fails ends the
loop. -/
def visitRuns (m : Arithmetic) (v : View) (size p len : Nat) (visit : Run → Act σ Unit) (done : Nat) :
    Act σ Unit :=
  if _ : done < len then
    match v.nextRun m size p len done with
    | .error e => throw e
    | .ok r => do
      visit r
      if _ : r.span.length = 0 then throw (.misuse .standstill)
      else v.visitRuns m size p len visit (done + r.span.length)
  else pure ()
termination_by len - done

end View

/-! ## Channels -/

namespace Channel

/-- Writes the elements of a request that belong to a run of it. -/
def writeRun (c : Channel σ α) (xs : List α) (r : View.Run) : Act σ Unit :=
  c.write r.inner ((xs.drop r.span.start).take r.span.length)

/-- Reads a run and puts what is found, also if it is not all, behind what was found before. -/
def readRun (c : Channel σ α) (r : View.Run) : Act (σ × Array α) Unit :=
  ExceptT.mk fun (s, found) =>
    let done := (c.read r.inner r.span.length).run s
    ⟨done.value.result, done.events, (done.state, found ++ done.value.items)⟩

/-- Reads what the visits of some runs find. -/
def readVisits (visits : Act (σ × Array α) Unit) : Effect σ (Transfer α) := fun s =>
  let done := visits.run.run (s, #[])
  ⟨⟨done.state.2.toList, done.value⟩, done.events, done.state.1⟩

/-- The channel as a view presents it that stores the given size. Bulk transfers are reported if
`logged`. -/
def throughIn (m : Arithmetic) (c : Channel σ α) (v : View) (size : Nat) (logged : Bool) :
    Channel σ α where
  size := size
  get pos := do
    Act.ofExcept (checkPos size pos)
    c.get (← Act.ofExcept (v.positionIn m size pos))
  set pos x := do
    Act.ofExcept (checkPos size pos)
    c.set (← Act.ofExcept (v.positionIn m size pos)) x
  read pos count := readWithin size pos count do
    if logged then Effect.note (.flattened v.transform.name pos count)
    readVisits (v.visitRuns m size pos count c.readRun 0)
  write pos xs := writeWithin size pos xs.length do
    if logged then Act.ofEffect (Effect.note (.unflattened v.transform.name pos xs.length))
    v.visitRuns m size pos xs.length (c.writeRun xs) 0

end Channel

/-- The cube as a view presents it that stores the given size. -/
def Access.throughIn (m : Arithmetic) (a : Access σ α) (v : View) (size : Nat) : Access σ α where
  raw := a.raw.throughIn m v size true
  nullable := a.nullable.throughIn m v size false
  flush := a.flush

namespace Cube

/-- The size that a cube stores. -/
def sizeIn (m : Arithmetic) (c : Cube k) : Nat := storedSize m c.shape

/-- Access to the elements of a cube, computed in an arithmetic. -/
def accessIn (m : Arithmetic) (slots : (k : Kind) → Nat → List Nat → Access σ k.Elem) :
    {k : Kind} → Cube k → Access σ k.Elem
  | _, leaf k slot dims => slots k slot (shapeOf dims)
  | _, view _ inner dims transform =>
    (inner.accessIn m slots).throughIn m (inner.viewOver dims transform)
      (storedSize m (shapeOf dims))
  | _, cast _ inner target => (inner.accessIn m slots).convert target

end Cube

end Orthotope
