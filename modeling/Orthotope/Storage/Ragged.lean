import Orthotope.Channel

/-!
# Nested lists

A `Nested α` holds elements in lists of lists, which need not have the same lengths but must have the
same depth (`Nested.depth`). As a cube it has the shape of the longest list at each level
(`Nested.lengths`). A position outside a shorter list is a hole: it reads as missing, and a write to it
has no effect.
-/

namespace Orthotope

/-- Lists of lists of elements. -/
inductive Nested (α : Type) where
  /-- An innermost list. -/
  | values (xs : List α)
  /-- A list of nested lists. -/
  | lists (ts : List (Nested α))

/-- What is known of a number of nesting levels. Empty lists of lists fit any deeper nesting, so that
they only bound it. -/
inductive Depth where
  | exactly (levels : Nat)
  | atLeast (levels : Nat)
  deriving DecidableEq, Repr

/-- The larger number at each place of two lists. -/
def longest : List Nat → List Nat → List Nat
  | m :: ms, n :: ns => max m n :: longest ms ns
  | [], ns => ns
  | ms, [] => ms

namespace Nested

variable {α : Type}

instance : Inhabited (Nested α) := ⟨values []⟩

mutual

/-- The number of nesting levels. -/
def depth : Nested α → Except Error Depth
  | values _ => .ok (.exactly 1)
  | lists ts => do
    match ← depths none 0 ts with
    | (some levels, least) =>
      if levels < least then throw .unevenDepth
      return .exactly (levels + 1)
    | (none, least) => return .atLeast (least + 1)

/-- Goes through some lists and keeps the number of levels of those that tell it exactly, on which they must
agree, and the least number that all others need. -/
def depths (known : Option Nat) (least : Nat) : List (Nested α) → Except Error (Option Nat × Nat)
  | [] => .ok (known, least)
  | t :: ts => do
    match ← depth t with
    | .exactly levels =>
      if known.any (· ≠ levels) then throw .unevenDepth
      depths (some levels) least ts
    | .atLeast levels => depths known (max least levels) ts

end

mutual

/-- The length of the longest list at each level. -/
def lengths : Nested α → List Nat
  | values xs => [xs.length]
  | lists ts => ts.length :: lengthsAll ts

/-- The length of the longest list at each level of some lists. -/
def lengthsAll : List (Nested α) → List Nat
  | [] => []
  | t :: ts => longest (lengths t) (lengthsAll ts)

end

/-- The shape of nested lists. All lists at a level must have the same depth. -/
def shape (t : Nested α) : Except Error (List Nat) := do
  let _ ← t.depth
  return t.lengths

/-- The element at coordinates, if it is there. -/
def find : Nested α → List Nat → Option α
  | values xs, [i] => xs[i]?
  | lists ts, i :: rest =>
    match ts[i]? with
    | some t => t.find rest
    | none => none
  | _, _ => none

/-- Replaces the element at coordinates, if it is there. -/
def replace (x : α) : Nested α → List Nat → Nested α
  | values xs, [i] => values (xs.set i x)
  | lists ts, i :: rest => lists (ts.modify i fun t => t.replace x rest)
  | t, _ => t

/-- The `count` elements from some coordinates on, in the row-major order of a shape. -/
def findFrom (shape : List Nat) (t : Nested α) (coords : List Nat) : (count : Nat) → List (Option α)
  | 0 => []
  | count + 1 => t.find coords :: findFrom shape t (advance shape coords).2 count

/-- Replaces elements from some coordinates on, in the row-major order of a shape. -/
def replaceFrom (shape : List Nat) (t : Nested α) (coords : List Nat) : List α → Nested α
  | [] => t
  | x :: xs => replaceFrom shape (t.replace x coords) (advance shape coords).2 xs

/-- The elements as a channel, with `null` for a hole. `size` is the size that the cube stores. -/
def channelOf (size : Nat) (shape : List Nat) (null : α) : Channel (Nested α) α where
  size := size
  get p := do
    Act.ofExcept (checkPos size p)
    Act.ofEffect (Effect.look fun t => (t.find (unravel shape p)).getD null)
  set p x := do
    Act.ofExcept (checkPos size p)
    Act.ofEffect (Effect.update fun t => t.replace x (unravel shape p))
  read p count := readWithin size p count <|
    Effect.look fun t => .done ((t.findFrom shape (unravel shape p) count).map (·.getD null))
  write p xs := writeWithin size p xs.length <|
    Act.ofEffect (Effect.update fun t => t.replaceFrom shape (unravel shape p) xs)

/-- The elements as a channel, with `none` for a hole. Writes move one element at a time. -/
def nullableChannelOf (size : Nat) (shape : List Nat) (null : α) : Channel (Nested α) (Option α) :=
  { (((channelOf size shape null).orNull null).stepwise) with
    get := fun p => do
      Act.ofExcept (checkPos size p)
      Act.ofEffect (Effect.look fun t => t.find (unravel shape p))
    read := fun p count => readWithin size p count <|
      Effect.look fun t => .done (t.findFrom shape (unravel shape p) count) }

/-- Access to the elements of a cube that stores the given size. A missing element is written as `null`. -/
def accessOf (size : Nat) (shape : List Nat) (null : α) : Access (Nested α) α where
  raw := channelOf size shape null
  nullable := nullableChannelOf size shape null
  flush := pure ()

/-- Access to the elements of a cube of the given shape. -/
def access (shape : List Nat) (null : α) : Access (Nested α) α := accessOf (sizeOf shape) shape null

end Nested

end Orthotope
