import Orthotope.Channel

/-!
# Whole contents

Operations on all elements of a cube, given the channel that leads to them: filling, copying, comparing
and reducing. They move the elements block by block through a buffer, so that the memory they use
does not depend on the size of the cube.

`Channel.foldBlocks` is the common pattern. A sum adds up each block on its own and then the block
sums; an extremum is not a number as soon as one element is not.
-/

namespace Orthotope.Channel

variable {σ α β : Type}

/-- Goes through the elements block by block. -/
def foldBlocks (c : Channel σ α) (f : β → List α → Act σ β) (start : β) : Act σ β :=
  (blocks 0 c.size).foldlM (fun acc s => do f acc (← c.readSpan s)) start

/-- Sets every element to the same value. -/
def fill (c : Channel σ α) (x : α) : Act σ Unit :=
  (blocks 0 c.size).forM fun s => c.write s.start (List.replicate s.length x)

/-- Checks that two shapes are the same. -/
def checkSameShape (expected actual : List Nat) : Except Error Unit :=
  if expected.length ≠ actual.length then .error (.rank expected.length actual.length)
  else lengths 0 expected actual
where
  /-- Checks that the axes from `axis` on have the same lengths. -/
  lengths (axis : Nat) : List Nat → List Nat → Except Error Unit
    | m :: ms, n :: ns =>
      if m = n then lengths (axis + 1) ms ns else .error (.axisLength axis m n)
    | _, _ => .ok ()

/-- Copies the elements of `source` block by block. The channels have the same number of
positions. -/
def copyFrom (c source : Channel σ α) : Act σ Unit := do
  let _ ← source.foldBlocks (fun pos xs => do
    c.write pos xs
    return pos + xs.length) 0

/-- All elements in row-major order. -/
def toList (c : Channel σ α) : Act σ (List α) :=
  c.readSpan ⟨0, c.size⟩

/-- Whether two channels with the same number of positions have the same elements. After the first
block that differs the other channel is not read any more. -/
def sameContent (c other : Channel σ α) (same : α → α → Bool) : Act σ Bool := do
  let (_, equal) ← c.foldBlocks (fun (pos, equal) xs => do
    let equal ←
      if equal then do
        let ys ← other.readSpan ⟨pos, xs.length⟩
        pure ((xs.zip ys).all fun (x, y) => same x y)
      else pure false
    return (pos + xs.length, equal)) (0, true)
  return equal

/-! ## Reductions -/

/-- The sum of the elements, as numbers of 64 bits. -/
def sum (c : Channel σ α) (number : α → Binary .double) : Act σ (Binary .double) :=
  let zero := Binary.zero .double false
  c.foldBlocks (fun total xs =>
    return total.add (xs.foldl (fun acc x => acc.add (number x)) zero)) zero

/-- One more number for an extremum. `better a b` says that `b` is preferred to `a`. -/
def pick (better : Binary .double → Binary .double → Bool) (best : Option (Binary .double))
    (x : Binary .double) : Option (Binary .double) :=
  match best with
  | none => some x
  | some best =>
    if best.isNaN || x.isNaN then some (Binary.nan .double)
    else some (if better best x then x else best)

/-- The element that is preferred to all others, if there is an element. -/
def extremum (c : Channel σ α) (number : α → Binary .double)
    (better : Binary .double → Binary .double → Bool) : Act σ (Option (Binary .double)) :=
  c.foldBlocks (fun best xs => return xs.foldl (fun best x => pick better best (number x)) best) none

/-- The smallest element, if there is an element. -/
def min (c : Channel σ α) (number : α → Binary .double) : Act σ (Option (Binary .double)) :=
  c.extremum number fun a b => decide (b.rank < a.rank)

/-- The largest element, if there is an element. -/
def max (c : Channel σ α) (number : α → Binary .double) : Act σ (Option (Binary .double)) :=
  c.extremum number fun a b => decide (a.rank < b.rank)

end Orthotope.Channel
