import Orthotope.Proofs.Channel.Plain
import Orthotope.Proofs.Storage.Dense

/-!
# Dense storage is a flat list

The chunks of dense storage have fixed sizes: all are full but the last (`Dense.Tiled`), and there may
be empty ones behind it. Put together they are a list whose entries are the single elements
(`Dense.Tiled.toList_eq`), so that replacing an element replaces an entry of the list
(`Dense.Tiled.toList_replace`) and bulk transfers take and overwrite stretches of it.

`Dense.CutFrom` says that storage is a list cut into chunks. It holds of new storage, however that was
made, and one request keeps it and is answered as by the list (`Dense.CutFrom.answer`).
-/

namespace Orthotope

namespace Dense

variable {α : Type} {d : Dense α} {size p : Nat} {xs : List α}

/-! ## Chunks put together -/

/-- Every chunk has as many elements as it may have and as are left for it. -/
def Tiled (d : Dense α) (size : Nat) : Prop :=
  ∀ j, (d.chunks.getD j #[]).size = min d.chunkLength (size - j * d.chunkLength)

theorem Tiled.covers (h : d.Tiled size) : d.Covers size := by
  intro p hp
  have hplace := Nat.div_add_mod' p d.chunkLength
  have hmod := Nat.mod_lt p d.chunkLength_pos
  rw [h]
  omega

theorem Tiled.replace (h : d.Tiled size) (p : Nat) (x : α) : (d.replace p x).Tiled size := by
  intro j
  rw [chunk_replace, chunkLength_replace, ← h j]
  split
  · rw [Array.size_setIfInBounds]
  · rfl

/-- Lists of lengths that tile a size, put together, have their entries where dense storage looks for
them. -/
theorem flatMap_tiles [Inhabited α] {L : Nat} (hL : 0 < L) {chunks : List (Array α)} {size : Nat}
    (h : ∀ j, (chunks.getD j #[]).size = min L (size - j * L)) :
    chunks.flatMap Array.toList =
      (List.range size).map fun p => (chunks.getD (p / L) #[]).getD (p % L) default := by
  induction chunks generalizing size with
  | nil =>
    have hsize := h 0
    simp at hsize
    have hzero : size = 0 := by omega
    simp [hzero]
  | cons chunk chunks ih =>
    have hfirst : chunk.size = min L size := by simpa using h 0
    have hrest : ∀ j, (chunks.getD j #[]).size = min L (size - L - j * L) := by
      intro j
      have hnext := h (j + 1)
      rw [List.getD_cons_succ, Nat.succ_mul] at hnext
      omega
    have hsplit : size = min L size + (size - L) := by omega
    have hhere : chunk.toList =
        (List.range (min L size)).map fun p => ((chunk :: chunks).getD (p / L) #[]).getD (p % L) default := by
      apply List.ext_getElem
      · simp [hfirst]
      · intro i hi hi'
        have hlt : i < min L size := by simpa using hi'
        have hdiv : i / L = 0 := Nat.div_eq_of_lt (by omega)
        have hmod : i % L = i := Nat.mod_eq_of_lt (by omega)
        simp [hdiv, hmod, hfirst, hlt]
    have hbehind : (List.range (size - L)).map
          (fun p => (chunks.getD (p / L) #[]).getD (p % L) default) =
        ((List.range (size - L)).map (min L size + ·)).map
          fun p => ((chunk :: chunks).getD (p / L) #[]).getD (p % L) default := by
      rw [List.map_map]
      refine List.map_congr_left fun p hp => ?_
      have hfull : min L size = L := by
        have := List.mem_range.1 hp
        omega
      simp [hfull, Nat.add_div_left p hL]
    rw [List.flatMap_cons, ih hrest, hhere, hbehind, ← List.map_append, ← List.range_add, ← hsplit]

/-- All elements in order are the single elements in order. -/
theorem Tiled.toList_eq [Inhabited α] (h : d.Tiled size) :
    d.toList = (List.range size).map d.item := by
  have htiles : ∀ j, (d.chunks.toList.getD j #[]).size =
      min d.chunkLength (size - j * d.chunkLength) := by
    intro j
    rw [← h j]
    simp [Array.getD_eq_getD_getElem?, List.getD_eq_getElem?_getD]
  rw [toList, flatMap_tiles d.chunkLength_pos htiles]
  refine List.map_congr_left fun p _ => ?_
  simp [item, Array.getD_eq_getD_getElem?, List.getD_eq_getElem?_getD]

theorem Tiled.getElem?_toList [Inhabited α] (h : d.Tiled size) (hp : p < size) :
    d.toList[p]? = some (d.item p) := by
  simp [h.toList_eq, hp]

/-- Replacing an element replaces an entry of the list of all elements. -/
theorem Tiled.toList_replace [Inhabited α] (h : d.Tiled size) (hp : p < size) (x : α) :
    (d.replace p x).toList = d.toList.set p x := by
  rw [(h.replace p x).toList_eq, h.toList_eq]
  apply List.ext_getElem
  · simp
  · intro q hq hq'
    have hlt : q < size := by simpa using hq
    rw [List.getElem_set]
    simp only [List.getElem_map, List.getElem_range, h.covers.item_replace hp]
    split
    · next heq => rw [if_pos heq.symm]
    · next hne => rw [if_neg (Ne.symm hne)]

/-! ## Lists cut into chunks -/

/-- Storage in chunks of `2 ^ shift` is the given list cut at the ends of the chunks. -/
structure CutFrom (shift : Nat) (d : Dense α) (xs : List α) : Prop where
  shift_eq : d.chunkShift = shift
  tiled : d.Tiled xs.length
  toList : d.toList = xs

variable {shift : Nat}

theorem CutFrom.item_eq [Inhabited α] {x : α} (h : CutFrom shift d xs) (hx : xs[p]? = some x) :
    d.item p = x := by
  obtain ⟨hp, -⟩ := List.getElem?_eq_some_iff.1 hx
  have hitem := h.tiled.getElem?_toList hp
  rw [h.toList, hx] at hitem
  exact (Option.some.inj hitem).symm

theorem CutFrom.replace [Inhabited α] (h : CutFrom shift d xs) (hp : p < xs.length) (x : α) :
    CutFrom shift (d.replace p x) (xs.set p x) where
  shift_eq := h.shift_eq
  tiled := by
    rw [List.length_set]
    exact h.tiled.replace p x
  toList := by rw [h.tiled.toList_replace hp, h.toList]

/-! ## Requests -/

/-- Dense storage is plain as long as every position has its place. -/
theorem plain [Inhabited α] (size : Nat) :
    (channel (α := α) size).Plain (Covers · size) item replace :=
  Channel.plain_ofState (fun x h _ => h.replace _ x) (fun h hle => h.items_eq hle)
    fun _ _ => overwrite_eq ..

/-- Dense storage answers a request as the list that it is cut from, on both channels. -/
theorem CutFrom.answer [Inhabited α] {shape : List Nat} (h : CutFrom shift d xs)
    (hsize : xs.length = sizeOf shape) (null : α) (r : Access.Request α) :
    (((access shape null).answer r).run d).value = (r.onList null xs).1 ∧
      CutFrom shift (((access shape null).answer r).run d).state (r.onList null xs).2 := by
  have hcovers : d.Covers (sizeOf shape) := hsize ▸ h.tiled.covers
  cases r with
  | raw r =>
    obtain ⟨hvalue, hstate⟩ := (plain (sizeOf shape)).answer_onList
      (fun h hx => h.item_eq hx) (fun x h hp => h.replace hp x) hcovers h hsize r
    rw [Access.answer, Effect.run_map]
    exact ⟨congrArg Access.Answer.raw hvalue, hstate⟩
  | nullable r =>
    obtain ⟨hvalue, hstate⟩ := ((plain (sizeOf shape)).orNull null).answer_onList
      (fun h hx => congrArg some (h.item_eq hx)) (fun x h hp => h.replace hp (x.getD null))
      hcovers h hsize r
    rw [Access.answer, Effect.run_map]
    exact ⟨congrArg Access.Answer.nullable hvalue, hstate⟩

/-! ## New storage -/

/-- Storage whose chunks are made span by span is tiled if each chunk is as long as its span. -/
theorem tiled_walk {g : Span → Array α} (shift n : Nat)
    (hsize : ∀ s, s.start + s.length ≤ n → (g s).size = s.length) :
    Tiled ⟨shift, ((walk (fun _ _ => 2 ^ shift) 0 n).map g).toArray⟩ n := by
  intro j
  have hL : 0 < 2 ^ shift := Nat.two_pow_pos shift
  unfold chunkLength
  rw [Array.getD_eq_getD_getElem?, List.getElem?_toArray, List.getElem?_map,
    getElem?_walk_const hL]
  split
  · rw [Option.map_some, Option.getD_some, hsize _ (by dsimp only; omega)]
  · show 0 = min (2 ^ shift) (n - j * 2 ^ shift)
    omega

/-- One chunk is tiled if it is not too long. -/
theorem tiled_chunk {xs : List α} (h : xs.length ≤ 2 ^ shift) :
    Tiled ⟨shift, #[xs.toArray]⟩ xs.length := by
  intro j
  unfold chunkLength
  cases j with
  | zero => simp [Nat.min_eq_right h]
  | succ j =>
    have hbeyond : xs.length - (j + 1) * 2 ^ shift = 0 := by
      rw [Nat.succ_mul]
      omega
    simp [Array.getD, hbeyond]

/-- Storage that is tiled and holds the entries of a list is cut from the list. -/
theorem Holds.cutFrom [Inhabited α] (h : d.Holds xs.length fun p => xs.getD p default)
    (htiled : d.Tiled xs.length) : CutFrom d.chunkShift d xs where
  shift_eq := rfl
  tiled := htiled
  toList := by
    rw [htiled.toList_eq]
    apply List.ext_getElem
    · simp
    · intro p hp hp'
      have hitem : d.item p = xs.getD p default := h.2 p hp'
      simp [hitem, hp']

theorem cutFrom_filled [Inhabited α] (x : α) (chunkShift size : Nat) :
    CutFrom (min chunkShift maxChunkShift) (filled x chunkShift size) (List.replicate size x) := by
  have htiled : (filled x chunkShift size).Tiled size :=
    tiled_walk _ size fun s _ => Array.size_replicate
  have hholds := holds_filled x chunkShift size
  refine Holds.cutFrom (d := filled x chunkShift size) ⟨?_, fun p hp => ?_⟩ ?_
  · rw [List.length_replicate]
    exact hholds.1
  · rw [List.length_replicate] at hp
    simp [hholds.2 p hp, hp]
  · rw [List.length_replicate]
    exact htiled

theorem cutFrom_ofList [Inhabited α] (xs : List α) : CutFrom maxChunkShift (ofList xs) xs := by
  refine (holds_ofList xs).cutFrom ?_
  unfold ofList
  split
  · next hle => exact tiled_chunk hle
  · refine tiled_walk _ xs.length fun s hle => ?_
    simp
    omega

theorem cutFrom_wrapped [Inhabited α] (h : xs.length ≤ 2 ^ maxChunkShift) :
    CutFrom maxChunkShift (wrapped xs) xs := by
  refine (holds_wrapped h).cutFrom ?_
  unfold wrapped
  split
  · next hempty =>
    obtain rfl := List.isEmpty_iff.1 hempty
    intro j
    simp
  · exact tiled_chunk h

end Dense

end Orthotope
