import Orthotope.BitSet

/-!
# Indices

An index labels the positions of an axis with keys. A `Base` index is either natural, with the
positions themselves as keys, or labelled by a list of distinct keys. Masking an axis or taking part
of it keeps some positions of the base and numbers them afresh from zero. However often that is
repeated, an `Index` stays one step away from its base: it holds the base positions that are left,
either as an ascending list or as a range.

`Index.keyOf` gives the key at a position and `Index.indexOf` finds the position of a key.
-/

namespace Orthotope

/-- A key of an index: a number, or a label of any type whose values can be compared. The labels are
texts if no other type is given. -/
inductive Key (κ : Type := String) where
  | number (n : Int)
  | text (s : κ)
  deriving DecidableEq, Repr

/-- An index that is not derived from another. -/
inductive Base (κ : Type := String) where
  /-- The keys are the positions below `size`. -/
  | natural (name : String) (size : Nat)
  /-- The key at position `i` is `keys[i]`. -/
  | labelled (name : String) (keys : Array (Key κ)) (distinct : keys.toList.Nodup)

namespace Base

variable {κ : Type}

/-- The index whose keys are given. There must be at least one, and no two may be equal. -/
def ofKeys [DecidableEq κ] (name : String) (keys : Array (Key κ)) : Except Error (Base κ) :=
  if keys.isEmpty then .error .noKeys
  else if h : keys.toList.Nodup then .ok (labelled name keys h)
  else .error .duplicateKey

/-- The name of an index. -/
def name : Base κ → String
  | natural name _ => name
  | labelled name _ _ => name

/-- The number of positions. -/
def size : Base κ → Nat
  | natural _ size => size
  | labelled _ keys _ => keys.size

/-- The key at a position. -/
def keyOf : Base κ → Nat → Option (Key κ)
  | natural _ size, i => if i < size then some (.number i) else none
  | labelled _ keys _, i => keys[i]?

/-- The position of a key. -/
def indexOf [DecidableEq κ] : Base κ → Key κ → Option Nat
  | natural _ size, .number n => if 0 ≤ n ∧ n.toNat < size then some n.toNat else none
  | natural _ _, .text _ => none
  | labelled _ keys _, k => keys.toList.idxOf? k

end Base

/-- An index: a base, or some of its positions numbered afresh. -/
inductive Index (κ : Type := String) where
  /-- All positions of the base. -/
  | whole (base : Base κ)
  /-- The listed positions of the base, in ascending order. -/
  | masked (name : String) (base : Base κ) (positions : Array Nat)
  /-- The positions of the base from `start` on and below `stop`. -/
  | range (name : String) (base : Base κ) (start stop : Nat)

namespace Index

variable {κ : Type}

/-- The base that an index is derived from. -/
def base : Index κ → Base κ
  | whole base => base
  | masked _ base _ => base
  | range _ base _ _ => base

/-- The name of an index. It shows how the index was derived. -/
def name : Index κ → String
  | whole base => base.name
  | masked name _ _ => name
  | range name _ _ _ => name

/-- The number of positions. -/
def size : Index κ → Nat
  | whole base => base.size
  | masked _ _ positions => positions.size
  | range _ _ start stop => stop - start

/-- The base position of a position. -/
def basePosition : Index κ → Nat → Option Nat
  | whole base, i => if i < base.size then some i else none
  | masked _ _ positions, i => positions[i]?
  | range _ _ start stop, i => if i < stop - start then some (start + i) else none

/-- The key at a position. -/
def keyOf (index : Index κ) (i : Nat) : Option (Key κ) :=
  (index.basePosition i).bind index.base.keyOf

/-- The place of `p` among the entries from `low` on and below `high` of an ascending array. Each step
halves the part that is searched. -/
def placeBetween (positions : Array Nat) (p low high : Nat) : Option Nat :=
  if low < high then
    let middle := (low + high) / 2
    match compare (positions.getD middle 0) p with
    | .eq => some middle
    | .lt => placeBetween positions p (middle + 1) high
    | .gt => placeBetween positions p low middle
  else none
termination_by high - low

/-- The position that shows a base position. -/
def placeOf : Index κ → Nat → Option Nat
  | whole _, p => some p
  | masked _ _ positions, p => placeBetween positions p 0 positions.size
  | range _ _ start stop, p => if start ≤ p ∧ p < stop then some (p - start) else none

/-- The position of a key. -/
def indexOf [DecidableEq κ] (index : Index κ) (k : Key κ) : Option Nat :=
  (index.base.indexOf k).bind index.placeOf

/-- The name of what is left of an index after masking it. -/
def maskedName (index : Index κ) : String := index.name ++ "[mask]"

/-- The name of the positions from `start` on and below `stop`. -/
def rangeName (index : Index κ) (start stop : Nat) : String := s!"{index.name}[{start}:{stop}]"

/-- Keeps the positions marked in `mask`. Marks beyond the end do not matter. -/
def mask (index : Index κ) (mask : BitSet) : Index κ :=
  .masked index.maskedName index.base <|
    match index with
    | whole base => (mask.positions.takeWhile (· < base.size)).toArray
    | masked _ _ positions =>
      (positions.toList.zipIdx.filterMap fun (p, i) => if mask.mem i then some p else none).toArray
    | range _ _ start stop =>
      (((List.range (stop - start)).filter mask.mem).map (start + ·)).toArray

/-- Keeps the positions from `start` on and below `stop`, which must lie within the index. -/
def sub (index : Index κ) (start stop : Nat) : Except Error (Index κ) :=
  if start ≤ stop ∧ stop ≤ index.size then
    .ok <| match index with
      | whole base => .range (index.rangeName start stop) base start stop
      | masked _ base positions =>
        .masked (index.rangeName start stop) base (positions.extract start stop)
      | range _ base first _ =>
        .range (index.rangeName start stop) base (first + start) (first + stop)
  else .error (.indexRange start stop index.size)

/-- Whether two indices cover the same range of one base. Whether they share the base is for the
caller to say, since equal bases may be different objects. -/
def sameRange (sharedBase : Bool) : Index κ → Index κ → Bool
  | range _ _ start stop, range _ _ start' stop' =>
    sharedBase && start == start' && stop == stop'
  | _, _ => false

end Index

end Orthotope
