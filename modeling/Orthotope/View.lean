import Orthotope.Accessor
import Orthotope.Layout
import Orthotope.Text
import Orthotope.Walk

/-!
# Views

A `Transform` says how one cube presents the elements of another. A `View` puts a transform between
the shape of the cube beneath (`source`) and the shape that is presented (`shape`).

`View.position` takes a flat position of the view to the flat position beneath that it shows. Two
transforms work on flat positions; the others work on coordinates (`View.coords`).

A bulk transfer goes through a view in runs. A run is a stretch of positions of the view that are
consecutive beneath as well, and `View.reach` says how far it goes: to the end of the request, of the
row of the last axis, or to the view's own discontinuity, whichever comes first. `View.runs` splits a
request into runs.
-/

namespace Orthotope

/-- How a cube presents the elements of another. -/
inductive Transform where
  /-- The axes are in reverse order. -/
  | transposed
  /-- Part of each axis. There is one entry for each axis of the cube beneath, and each range among
  them gives an axis of the view. -/
  | sliced (axes : List AxisSlice)
  /-- Each axis is shifted in a circle: position `i` of an axis shows position `i - s`, where `s` is
  its shift. -/
  | rolled (shifts : List Nat)
  /-- The elements in row-major order are shifted in a circle. -/
  | flatRolled (shift : Nat)
  /-- Some positions of the first axis: position `i` shows `positions[i]`. -/
  | masked (positions : Array Nat)
  /-- The same elements in the same order, with another shape. -/
  | reshaped
  deriving DecidableEq, Repr

namespace Transform

/-- The name of a transform. -/
def name : Transform → String
  | transposed => "transposed"
  | sliced _ => "sliced"
  | rolled _ => "axis-rolled"
  | flatRolled _ => "flat-rolled"
  | masked _ => "masked"
  | reshaped => "reshaped"

end Transform

namespace AxisSlice

/-- An entry of a slice in words. -/
def text : AxisSlice → String
  | fixed coord => s!"Fixed({coord})"
  | range start step count =>
    s!"Range \x7b start: {start}, step: {step}, count: {count} \x7d"

/-- The coordinates beneath a slice. A fixed axis has its coordinate; each range takes one coordinate
of the view. -/
def place : List AxisSlice → List Nat → List Nat
  | [], _ => []
  | fixed c :: axes, coords => c :: place axes coords
  | range start step _ :: axes, i :: coords => (start + i * step) :: place axes coords
  | range start _ _ :: axes, [] => start :: place axes []

end AxisSlice

namespace Transform

/-- A transform in words. -/
def text : Transform → String
  | transposed => "Transposed"
  | sliced axes => "Sliced(" ++ listed (axes.map AxisSlice.text) ++ ")"
  | rolled shifts => s!"AxisRolled({bracketed shifts})"
  | flatRolled shift => s!"FlatRolled({shift})"
  | masked positions => "Masked(" ++ bracketed positions.toList ++ ")"
  | reshaped => "Reshaped"

end Transform

/-- The position on a circle of `length` positions that lies `shift` before position `i`. -/
def unroll (i shift length : Nat) : Nat :=
  if shift ≤ i then i - shift else i + length - shift

/-- The coordinates beneath a roll of each axis. -/
def unrollAxes : List Nat → List Nat → List Nat → List Nat
  | i :: coords, s :: shifts, n :: shape => unroll i s n :: unrollAxes coords shifts shape
  | _, _, _ => []

/-- The number of entries from `i` on that each exceed the one before by one, at most `left` of
them. -/
def stretch (positions : Array Nat) (i : Nat) : (left : Nat) → Nat
  | 0 => 0
  | 1 => 1
  | left + 2 =>
    if positions.getD (i + 1) 0 = positions.getD i 0 + 1 then
      stretch positions (i + 1) (left + 1) + 1
    else 1

/-- A transform between the shape of the cube beneath and the shape presented. -/
structure View where
  source : List Nat
  shape : List Nat
  transform : Transform
  deriving DecidableEq, Repr

namespace View

/-- The number of positions of a view. -/
def size (v : View) : Nat := sizeOf v.shape

/-- The coordinates beneath that the coordinates of a view show. A transform that works on flat
positions leaves them as they are. -/
def coords (v : View) (cs : List Nat) : List Nat :=
  match v.transform with
  | .transposed => cs.reverse
  | .sliced axes => AxisSlice.place axes cs
  | .rolled shifts => unrollAxes cs shifts v.shape
  | .masked positions =>
    match cs with
    | i :: rest => positions.getD i 0 :: rest
    | [] => []
  | .flatRolled _ | .reshaped => cs

/-- The flat position beneath that a position of a view shows. -/
def position (v : View) (p : Nat) : Nat :=
  match v.transform with
  | .flatRolled shift => unroll p shift v.size
  | .reshaped => p
  | _ => offset v.source (v.coords (unravel v.shape p))

/-- The number of positions from `p` on in the row of the last axis, at most `left`. -/
def rowLeft (v : View) (p left : Nat) : Nat :=
  match v.shape.getLast? with
  | none => left
  | some n => min left (n - p % n)

/-- The number of positions from `p` on that are consecutive beneath as well, at most `left`. It may
fall short of the largest such number. -/
def reach (v : View) (p left : Nat) : Nat :=
  match v.transform with
  | .flatRolled _ => min left (v.size - v.position p)
  | .reshaped => left
  | .transposed => 1
  | .rolled shifts =>
    match v.shape.getLast?, shifts.getLast? with
    | some n, some shift =>
      if shift ≤ p % n then v.rowLeft p left else min left (shift - p % n)
    | _, _ => left
  | .sliced axes =>
    match axes.getLast? with
    | some (.fixed _) => 1
    | some (.range _ step _) => if step = 1 then v.rowLeft p left else 1
    | none => left
  | .masked positions => if v.shape.length = 1 then stretch positions p left else v.rowLeft p left

/-- A run of `span.length` positions of a view that show the positions from `inner` on. -/
structure Run where
  inner : Nat
  span : Span
  deriving DecidableEq, Repr

/-- Splits `left` positions of a view from `p` on into runs. -/
def runs (v : View) (p left : Nat) : List Run :=
  (walk v.reach p left).map fun s => ⟨v.position s.start, s⟩

end View

end Orthotope
