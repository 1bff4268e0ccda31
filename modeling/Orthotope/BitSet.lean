import Orthotope.Error

/-!
# Bit sets

A `BitSet` marks some of the positions below its size. The marks are packed into words of 64 bits, so
that a mask of a long axis stays small: bit `i` of word `w` marks position `64 * w + i`. No bit at or
beyond the size is ever set, which makes the words of a set unique.

`mem` asks for one position, `positions` lists the marked ones in ascending order, and `insert`,
`erase` and `assign` change one mark, refusing a position at or beyond the size.
-/

namespace Orthotope

/-- Marks on the positions below `size`. -/
structure BitSet where
  size : Nat
  words : Array (BitVec 64)
  deriving DecidableEq, Repr

namespace BitSet

/-- The number of words that hold `size` marks. -/
def wordCount (size : Nat) : Nat := (size + 63) / 64

/-- No position is marked. -/
def empty (size : Nat) : BitSet :=
  ⟨size, Array.replicate (wordCount size) 0⟩

instance : Inhabited BitSet := ⟨empty 0⟩

/-- Clears the bits of the last word that are beyond the size. -/
def clearTail (s : BitSet) : BitSet :=
  if s.size % 64 = 0 then s
  else { s with words := s.words.modify (s.words.size - 1) (· &&& (BitVec.twoPow 64 (s.size % 64) - 1)) }

/-- Every position is marked: all bits of all words are set, and then those beyond the size are cleared. -/
def full (size : Nat) : BitSet :=
  clearTail ⟨size, (empty size).words.map fun _ => BitVec.allOnes 64⟩

/-- Whether a position is marked. None is beyond the end. -/
def mem (s : BitSet) (p : Nat) : Bool :=
  decide (p < s.size) && (s.words.getD (p / 64) 0).getLsbD (p % 64)

/-- Marks a position or removes its mark. There is nothing to change beyond the end. -/
def mark (s : BitSet) (p : Nat) (marked : Bool) : BitSet :=
  if p < s.size then
    let bit := BitVec.twoPow 64 (p % 64)
    { s with words := s.words.modify (p / 64) fun w => if marked then w ||| bit else w &&& ~~~bit }
  else s

/-- Marks a position or removes its mark. The position must be below the size. -/
def assign (s : BitSet) (p : Nat) (marked : Bool) : Except Error BitSet :=
  if p < s.size then .ok (s.mark p marked) else .error (.misuse .bitPosition)

/-- Marks a position, which must be below the size. -/
def insert (s : BitSet) (p : Nat) : Except Error BitSet := s.assign p true

/-- Removes the mark of a position, which must be below the size. -/
def erase (s : BitSet) (p : Nat) : Except Error BitSet := s.assign p false

/-- Marks each of the given positions. -/
def insertAll (s : BitSet) (ps : List Nat) : Except Error BitSet :=
  ps.foldlM insert s

/-- Removes the mark of each of the given positions. -/
def eraseAll (s : BitSet) (ps : List Nat) : Except Error BitSet :=
  ps.foldlM erase s

/-- The set with one position for each entry, marked where the entry is true. -/
def ofBools (bs : List Bool) : BitSet :=
  bs.zipIdx.foldl (fun s (b, p) => if b then s.mark p true else s) (empty bs.length)

/-- The number of bits set in a word. -/
def countWord (w : BitVec 64) : Nat :=
  if w = 0 then 0 else (List.range 64).countP w.getLsbD

/-- The number of marked positions. -/
def count (s : BitSet) : Nat :=
  s.words.foldl (fun n w => n + countWord w) 0

/-- Whether no position is marked. -/
def isEmpty (s : BitSet) : Bool := s.words.all (· = 0)

/-- Whether every position is marked. -/
def isFull (s : BitSet) : Bool := decide (s.count = s.size)

/-- The number of zeros below the lowest bit that is set. -/
def trailingZeros (w : BitVec 64) : Nat := ((List.range 64).find? w.getLsbD).getD 64

/-- The bits that are set in a word, the lowest first. Each is cleared to find the next one. -/
def setBits (w : BitVec 64) : List Nat :=
  if h : w = 0 then [] else trailingZeros w :: setBits (w &&& (w - 1))
termination_by w.toNat
decreasing_by
  have hpos : 0 < w.toNat := Nat.pos_of_ne_zero fun hw => h (BitVec.eq_of_toNat_eq hw)
  have hand : (w &&& (w - 1)).toNat ≤ (w - 1).toNat := by
    rw [BitVec.toNat_and]
    exact Nat.and_le_right
  have hsub : (w - 1).toNat = w.toNat - 1 := BitVec.toNat_sub_of_le (BitVec.le_def.2 hpos)
  omega

/-- The positions of the bits set in word number `i`, in ascending order. -/
def wordPositions (w : BitVec 64) (i : Nat) : List Nat := (setBits w).map (64 * i + ·)

/-- The marked positions in ascending order. -/
def positions (s : BitSet) : List Nat :=
  s.words.toList.zipIdx.flatMap fun (w, i) => wordPositions w i

/-- One digit for each position: `1` if it is marked, else `0`. -/
def digits (s : BitSet) : String :=
  String.ofList ((List.range s.size).map fun p => if s.mem p then '1' else '0')

end BitSet

end Orthotope
