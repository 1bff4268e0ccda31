import Orthotope.Proofs.Storage.Flat
import Orthotope.Proofs.Machine.Arithmetic

/-!
# The loop over chunks

A bulk transfer of dense storage goes from chunk to chunk: it finds the chunk of the next position and
the place in it, works out how long that chunk is, and moves what is left of the chunk or of the
request. `Dense.spansGuarded` is that loop with every step checked: a chunk that begins beyond the end, a
place behind the end of its chunk, a chunk that is not there, a stretch beyond the end of a chunk and a
round that moves nothing are misuses.

On storage that is tiled no check fails, and the spans of the rounds are those of the plain walk
(`Dense.Tiled.spansGuarded_eq`). They cover the request, each position once and in order
(`positions_walk`).
-/

namespace Orthotope

namespace Dense

variable {α : Type} {d : Dense α} {size : Nat}

/-- The spans of the rounds that move `left` elements from `pos` on, in storage for `size` elements. -/
def spansGuarded (d : Dense α) (size pos left : Nat) : Except Error (List Span) :=
  if left = 0 then .ok []
  else do
    let place := pos % d.chunkLength
    let room ← Arithmetic.unbounded.sub size (pos / d.chunkLength * d.chunkLength)
    let inside ← Arithmetic.unbounded.sub (min d.chunkLength room) place
    match d.chunks[pos / d.chunkLength]? with
    | none => throw (.misuse .entry)
    | some chunk =>
      if _ : min inside left = 0 then throw (.misuse .standstill)
      else if chunk.size < place + min inside left then throw (.misuse .entry)
      else return ⟨pos, min inside left⟩ :: (← d.spansGuarded size (pos + min inside left)
        (left - min inside left))
termination_by left

/-- On tiled storage the loop ends without misuse, for every request in range, and makes the spans of
the plain walk. -/
theorem Tiled.spansGuarded_eq (h : d.Tiled size) {pos left : Nat} (hle : pos + left ≤ size) :
    d.spansGuarded size pos left = .ok (d.pieces pos left) := by
  unfold pieces
  induction left using Nat.strongRecOn generalizing pos with
  | ind left ih =>
    rw [spansGuarded]
    split
    · next hzero =>
      rw [hzero, walk_zero]
    next hzero =>
    have hL := d.chunkLength_pos
    have hplace := Nat.div_add_mod' pos d.chunkLength
    have hmod := Nat.mod_lt pos hL
    have hchunk := h (pos / d.chunkLength)
    have hstride : stride (fun p _ => d.chunkLength - p % d.chunkLength) pos left =
        min (d.chunkLength - pos % d.chunkLength) left := by
      unfold stride
      dsimp only
      omega
    rw [walk_of_ne_zero hzero, hstride]
    generalize pos / d.chunkLength = j at hplace hchunk
    generalize pos % d.chunkLength = i at hplace hmod
    -- what is left of the chunk may end with the storage, but not before the request
    have hinside : min (min d.chunkLength (size - j * d.chunkLength) - i) left =
        min (d.chunkLength - i) left := by omega
    have hpresent : d.chunks[j]? = some (d.chunks.getD j #[]) := by
      rw [Array.getD_eq_getD_getElem?] at hchunk ⊢
      cases hentry : d.chunks[j]? with
      | none =>
        rw [hentry] at hchunk
        have hempty : (0 : Nat) = min d.chunkLength (size - j * d.chunkLength) := hchunk
        omega
      | some chunk => rfl
    have hend : pos + min (d.chunkLength - i) left + (left - min (d.chunkLength - i) left) ≤ size := by
      omega
    have hrest := ih (left - min (d.chunkLength - i) left) (by omega) hend
    rw [Arithmetic.sub_eq _ (show j * d.chunkLength ≤ size by omega)]
    show (Arithmetic.unbounded.sub (min d.chunkLength (size - j * d.chunkLength)) i >>= fun inside => _) = _
    rw [Arithmetic.sub_eq _ (by omega), hpresent]
    show (if _ : min (min d.chunkLength (size - j * d.chunkLength) - i) left = 0 then _ else _) = _
    rw [dif_neg (by omega), if_neg (by omega), hinside, hrest]
    rfl

end Dense

end Orthotope
