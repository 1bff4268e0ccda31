import Orthotope.Channel
import Std.Data.HashMap

/-!
# Sparse storage

A `Sparse k` keeps only the elements that differ from a null value, as bit patterns in a map from
positions. A position without an entry reads as the null value, or as missing on the nullable channel.
Writing the null value or a missing element removes the entry, which is what `Sparse.find_store` says.
-/

namespace Orthotope

/-- The elements of a cube that differ from `null`, and the number of entries for which there was room
at first. -/
structure Sparse (k : Kind) where
  null : k.Elem
  room : Nat
  entries : Std.HashMap Nat (BitVec 64)

namespace Sparse

variable {k : Kind}

/-- The smallest and the largest number of entries that new storage makes room for. -/
def roomBounds : Nat × Nat := (13, 2 ^ 24)

/-- The number of entries that new storage for `size` elements makes room for, when the fraction
`loading` of them is expected to have one. -/
def roomFor (size : Nat) (loading : Binary .double) : Nat :=
  let one := Binary.ofInt .double 1
  let fraction :=
    if loading.rank ≤ 0 then Binary.zero .double false
    else if one.rank ≤ loading.rank then one
    else loading
  let wanted := ((Binary.ofInt .double size).mul fraction).truncate.toNat
  min roomBounds.2 (max roomBounds.1 wanted)

/-- The usual fraction of positions that are expected to have an entry. -/
def usualLoading : Binary .double := Binary.ofRatio .double false 1 10

/-- No entries yet, in storage for `size` elements. -/
def empty (null : k.Elem) (size : Nat) (loading : Binary .double) : Sparse k :=
  ⟨null, roomFor size loading, ∅⟩

/-- The entry at a position. -/
def find (s : Sparse k) (p : Nat) : Option k.Elem := s.entries[p]?.map k.ofBits

/-- The element at a position. -/
def item (s : Sparse k) (p : Nat) : k.Elem := (s.find p).getD s.null

/-- Replaces what is at a position. -/
def store (s : Sparse k) (p : Nat) (x : Option k.Elem) : Sparse k :=
  match x with
  | some x =>
    if k.same x s.null then { s with entries := s.entries.erase p }
    else { s with entries := s.entries.insert p (k.toBits x) }
  | none => { s with entries := s.entries.erase p }

@[simp]
theorem null_store (s : Sparse k) (p : Nat) (x : Option k.Elem) : (s.store p x).null = s.null := by
  unfold store
  split
  · split <;> rfl
  · rfl

/-- Storing changes one position. What is stored there is what was given, unless it is missing or the
null value. -/
theorem find_store (s : Sparse k) (p q : Nat) (x : Option k.Elem) :
    (s.store p x).find q = if p = q then x.filter (fun x => !k.same x s.null) else s.find q := by
  unfold find store
  by_cases hpq : p = q
  · subst hpq
    cases x with
    | none => simp
    | some x =>
      by_cases hnull : k.same x s.null = true
      · simp [hnull, Option.filter]
      · simp [hnull, Option.filter, Kind.ofBits_toBits]
  · cases x with
    | none => simp [hpq, Std.HashMap.getElem?_erase]
    | some x =>
      by_cases hnull : k.same x s.null = true
      · simp [hnull, hpq, Std.HashMap.getElem?_erase]
      · simp [hnull, hpq, Std.HashMap.getElem?_insert]

/-- Replaces what is at one position after the other. -/
def storeAll (s : Sparse k) (p : Nat) : List (Option k.Elem) → Sparse k
  | [] => s
  | x :: xs => storeAll (s.store p x) (p + 1) xs

/-- The number of entries. -/
def count (s : Sparse k) : Nat := s.entries.size

/-- Whether storage has no entries. -/
def isEmpty (s : Sparse k) : Bool := s.entries.isEmpty

/-- A number of entries that fit without making room again. -/
def capacity (s : Sparse k) : Nat := max s.room s.count

/-- Access to the elements of a cube of the given shape. -/
def access (shape : List Nat) : Access (Sparse k) k.Elem where
  raw :=
    { size := sizeOf shape
      get := fun p => do
        Act.ofExcept (checkPos (sizeOf shape) p)
        Act.ofEffect (Effect.look (·.item p))
      set := fun p x => do
        Act.ofExcept (checkPos (sizeOf shape) p)
        Act.ofEffect (Effect.update (·.store p (some x)))
      read := fun p count => readWithin (sizeOf shape) p count <|
        Effect.look fun s => .done ((List.range count).map fun i => s.item (p + i))
      write := fun p xs => writeWithin (sizeOf shape) p xs.length <|
        Act.ofEffect (Effect.update (·.storeAll p (xs.map some))) }
  nullable :=
    { size := sizeOf shape
      get := fun p => do
        Act.ofExcept (checkPos (sizeOf shape) p)
        Act.ofEffect (Effect.look (·.find p))
      set := fun p x => do
        Act.ofExcept (checkPos (sizeOf shape) p)
        Act.ofEffect (Effect.update (·.store p x))
      read := fun p count => readWithin (sizeOf shape) p count <|
        Effect.look fun s => .done ((List.range count).map fun i => s.find (p + i))
      write := fun p xs => writeWithin (sizeOf shape) p xs.length <|
        Act.ofEffect (Effect.update (·.storeAll p xs)) }
  flush := pure ()

end Sparse

end Orthotope
