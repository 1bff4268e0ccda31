import Orthotope.Channel

/-!
# Dense storage

A `Dense α` keeps every element. The elements in row-major order are cut into chunks of
`2 ^ chunkShift` elements, the last one shorter, so that no chunk is larger than memory likes; bulk
transfers copy a piece of each chunk that they touch. `Dense.toList` puts the chunks together again.

`Dense.access` is the access to the elements. It refuses nothing but positions out of range.
-/

namespace Orthotope

/-- Elements cut into chunks of `2 ^ chunkShift`. -/
structure Dense (α : Type) where
  chunkShift : Nat
  chunks : Array (Array α)

namespace Dense

variable {α : Type}

/-- The largest chunk shift, which is also the usual one. -/
def maxChunkShift : Nat := 30

/-- The length of a full chunk. -/
def chunkLength (d : Dense α) : Nat := 2 ^ d.chunkShift

/-- The same element `size` times. A larger shift than the largest is taken as that. -/
def filled (x : α) (chunkShift size : Nat) : Dense α :=
  let shift := min chunkShift maxChunkShift
  ⟨shift, ((walk (fun _ _ => 2 ^ shift) 0 size).map fun s => Array.replicate s.length x).toArray⟩

/-- The given elements, in chunks of the usual length. Up to that length they stay together, also if
there are none. -/
def ofList (xs : List α) : Dense α :=
  ⟨maxChunkShift,
    if xs.length ≤ 2 ^ maxChunkShift then #[xs.toArray]
    else ((walk (fun _ _ => 2 ^ maxChunkShift) 0 xs.length).map fun s =>
      ((xs.drop s.start).take s.length).toArray).toArray⟩

/-- The given elements, taken over as one chunk. If there are none there is no chunk. -/
def wrapped (xs : List α) : Dense α :=
  ⟨maxChunkShift, if xs.isEmpty then #[] else #[xs.toArray]⟩

/-- All elements in row-major order. -/
def toList (d : Dense α) : List α := d.chunks.toList.flatMap Array.toList

/-- The element at a position. -/
def item [Inhabited α] (d : Dense α) (p : Nat) : α :=
  (d.chunks.getD (p / d.chunkLength) #[]).getD (p % d.chunkLength) default

/-- Replaces the element at a position. -/
def replace (d : Dense α) (p : Nat) (x : α) : Dense α :=
  { d with
    chunks := d.chunks.modify (p / d.chunkLength) (·.setIfInBounds (p % d.chunkLength) x) }

/-- Cuts a request at the ends of the chunks. -/
def pieces (d : Dense α) (p count : Nat) : List Span :=
  walk (fun p _ => d.chunkLength - p % d.chunkLength) p count

/-- The elements of a span that lies within one chunk. -/
def piece (d : Dense α) (s : Span) : List α :=
  ((d.chunks.getD (s.start / d.chunkLength) #[]).extract (s.start % d.chunkLength)
    (s.start % d.chunkLength + s.length)).toList

/-- The `count` elements from a position on. -/
def items (d : Dense α) (p count : Nat) : List α :=
  (d.pieces p count).flatMap d.piece

/-- Writes elements into spans that each lie within one chunk. -/
def overwritePieces (d : Dense α) : List Span → List α → Dense α
  | [], _ => d
  | s :: rest, xs =>
    let chunks := d.chunks.modify (s.start / d.chunkLength)
      (Orthotope.overwrite · (s.start % d.chunkLength) (xs.take s.length))
    overwritePieces { d with chunks } rest (xs.drop s.length)

/-- Writes elements from a position on. -/
def overwrite (d : Dense α) (p : Nat) (xs : List α) : Dense α :=
  d.overwritePieces (d.pieces p xs.length) xs

/-- The elements as a channel of `size` positions. -/
def channel [Inhabited α] (size : Nat) : Channel (Dense α) α where
  size := size
  get p := do
    Act.ofExcept (checkPos size p)
    Act.ofEffect (Effect.look (·.item p))
  set p x := do
    Act.ofExcept (checkPos size p)
    Act.ofEffect (Effect.update (·.replace p x))
  read p count := readWithin size p count (Effect.look fun d => .done (d.items p count))
  write p xs := writeWithin size p xs.length (Act.ofEffect (Effect.update (·.overwrite p xs)))

/-- Access to the elements of a cube of the given shape. A missing element is written as `null`. -/
def access [Inhabited α] (shape : List Nat) (null : α) : Access (Dense α) α where
  raw := channel (sizeOf shape)
  nullable := (channel (sizeOf shape)).orNull null
  flush := pure ()

end Dense

end Orthotope
