import Orthotope.Proofs.Channel.Faithful
import Orthotope.Storage.Dense

/-!
# Dense storage is faithful

Dense storage cuts its elements into chunks. What matters about the chunks is only that every position
has a place in one of them (`Dense.Covers`). Then single accesses find the element at its place
(`Dense.Covers.item_replace`), bulk reads give the single elements in order
(`Dense.Covers.items_eq`) and bulk writes replace one element after the other
(`Dense.overwrite_eq`), wherever the chunks end. So the channel is faithful (`Dense.faithful`).
-/

namespace Orthotope

/-! ## Arrays -/

theorem getD_modify {β : Type} (xs : Array β) (i j : Nat) (g : β → β) {d : β} (hd : g d = d) :
    (xs.modify i g).getD j d = if i = j then g (xs.getD j d) else xs.getD j d := by
  simp only [Array.getD_eq_getD_getElem?, Array.getElem?_modify]
  split
  · cases xs[j]? <;> simp [hd]
  · rfl

theorem getD_setIfInBounds {β : Type} (xs : Array β) (i j : Nat) (x d : β) :
    (xs.setIfInBounds i x).getD j d = if i = j ∧ i < xs.size then x else xs.getD j d := by
  rw [Array.getD_eq_getD_getElem?, Array.getElem?_setIfInBounds]
  rcases Decidable.em (i = j) with rfl | hne
  · rcases Decidable.em (i < xs.size) with hlt | hlt <;> simp [hlt]
  · rw [if_neg hne, if_neg fun h => hne h.1, Array.getD_eq_getD_getElem?]

theorem modify_modify {β : Type} (xs : Array β) (i : Nat) (g h : β → β) :
    (xs.modify i g).modify i h = xs.modify i (h ∘ g) := by
  apply Array.ext_getElem?
  intro j
  simp only [Array.getElem?_modify]
  split
  · cases xs[j]? <;> rfl
  · rfl

theorem modify_self {β : Type} (xs : Array β) (i : Nat) {g : β → β} (hg : ∀ x, g x = x) :
    xs.modify i g = xs := by
  apply Array.ext_getElem?
  intro j
  rw [Array.getElem?_modify]
  split
  · cases xs[j]? <;> simp [hg]
  · rfl

namespace Dense

variable {α : Type} {d : Dense α} {size p q : Nat}

/-- Every position below the size has a place in a chunk. -/
def Covers (d : Dense α) (size : Nat) : Prop :=
  ∀ p < size, p % d.chunkLength < (d.chunks.getD (p / d.chunkLength) #[]).size

theorem chunkLength_pos (d : Dense α) : 0 < d.chunkLength := Nat.two_pow_pos _

@[simp] theorem chunkLength_replace (p : Nat) (x : α) :
    (d.replace p x).chunkLength = d.chunkLength := rfl

/-- What a chunk is after an element was replaced. -/
theorem chunk_replace (d : Dense α) (p : Nat) (x : α) (j : Nat) :
    (d.replace p x).chunks.getD j #[] = if p / d.chunkLength = j
      then (d.chunks.getD j #[]).setIfInBounds (p % d.chunkLength) x else d.chunks.getD j #[] :=
  getD_modify _ _ _ _ rfl

theorem Covers.replace (h : d.Covers size) (p : Nat) (x : α) : (d.replace p x).Covers size := by
  intro q hq
  rw [chunk_replace, chunkLength_replace]
  split
  · rw [Array.size_setIfInBounds]
    exact h q hq
  · exact h q hq

/-- A replaced element is found at its position, and all others stay. -/
theorem Covers.item_replace [Inhabited α] (h : d.Covers size) (hp : p < size) (x : α) :
    (d.replace p x).item q = if q = p then x else d.item q := by
  unfold item
  rw [chunk_replace, chunkLength_replace]
  by_cases hq : q = p
  · subst hq
    rw [if_pos rfl, getD_setIfInBounds, if_pos ⟨rfl, h q hp⟩, if_pos rfl]
  · rw [if_neg hq]
    split
    · next hchunk =>
      have hplace : p % d.chunkLength ≠ q % d.chunkLength := fun heq => by
        have hp' := Nat.div_add_mod p d.chunkLength
        have hq' := Nat.div_add_mod q d.chunkLength
        rw [hchunk, heq] at hp'
        exact hq (hq'.symm.trans hp')
      rw [getD_setIfInBounds, if_neg fun heq => hplace heq.1]
    · rfl

/-! ## Bulk transfers -/

/-- Positions that follow within one chunk have places that follow. -/
theorem place_add {n i : Nat} (h : p % n + i < n) :
    (p + i) / n = p / n ∧ (p + i) % n = p % n + i := by
  have hn : 0 < n := by omega
  have hp := Nat.div_add_mod p n
  have hsum : p + i = n * (p / n) + (p % n + i) := by omega
  rw [hsum, Nat.mul_add_div hn, Nat.mul_add_mod, Nat.div_eq_of_lt h, Nat.mod_eq_of_lt h,
    Nat.add_zero]
  exact ⟨rfl, rfl⟩

/-- The elements of a piece that lies within one chunk, in order. -/
theorem Covers.piece_eq [Inhabited α] (h : d.Covers size) {n : Nat} (hle : p + n ≤ size)
    (hpiece : p % d.chunkLength + n ≤ d.chunkLength) :
    d.piece ⟨p, n⟩ = (List.range' p n).map d.item := by
  have hplace : ∀ i < n, (p + i) / d.chunkLength = p / d.chunkLength ∧
      (p + i) % d.chunkLength = p % d.chunkLength + i := fun i hi => place_add (by omega)
  have hchunk : ∀ i < n, p % d.chunkLength + i < (d.chunks.getD (p / d.chunkLength) #[]).size :=
    fun i hi => by
      have hcovers := h (p + i) (by omega)
      rwa [(hplace i hi).1, (hplace i hi).2] at hcovers
  unfold piece
  dsimp only
  generalize hc : d.chunks.getD (p / d.chunkLength) #[] = chunk at hchunk
  apply List.ext_getElem
  · rw [Array.length_toList, Array.size_extract, List.length_map, List.length_range']
    rcases Nat.eq_zero_or_pos n with rfl | hn
    · omega
    · have := hchunk (n - 1) (by omega)
      omega
  · intro i hi hi'
    rw [List.length_map, List.length_range'] at hi'
    have hitem : d.item (p + i) = chunk.getD (p % d.chunkLength + i) default := by
      rw [item, (hplace i hi').1, (hplace i hi').2, hc]
    simp [hitem, Array.getD, hchunk i hi']

/-- One step along the chunks stays within the chunk that it starts in. -/
theorem stride_within (d : Dense α) {n : Nat} :
    p % d.chunkLength + stride (fun p _ => d.chunkLength - p % d.chunkLength) p n ≤
      d.chunkLength := by
  have := Nat.mod_lt p d.chunkLength_pos
  unfold stride
  dsimp only
  omega

/-- A bulk read gives the single elements in order, wherever the chunks end. -/
theorem Covers.items_eq [Inhabited α] (h : d.Covers size) {n : Nat} (hle : p + n ≤ size) :
    d.items p n = (List.range' p n).map d.item := by
  unfold items pieces
  induction n using Nat.strongRecOn generalizing p with
  | ind n ih =>
    by_cases hzero : n = 0
    · subst hzero
      rw [walk_zero]
      rfl
    have hwithin := d.stride_within (p := p) (n := n)
    have hpos := one_le_stride (fun p _ => d.chunkLength - p % d.chunkLength) p n
    have hstride : stride (fun p _ => d.chunkLength - p % d.chunkLength) p n ≤ n := stride_le hzero
    rw [walk_of_ne_zero hzero]
    generalize stride (fun p _ => d.chunkLength - p % d.chunkLength) p n = m at hwithin hpos hstride
    rw [List.flatMap_cons, h.piece_eq (by omega) hwithin, ih (n - m) (by omega) (by omega),
      ← List.map_append, List.range'_append_1, Nat.add_sub_cancel' hstride]

/-- Within one chunk, replacing elements one by one overwrites a stretch of the chunk. -/
theorem replaceEach_within (d : Dense α) (p : Nat) {xs : List α}
    (h : p % d.chunkLength + xs.length ≤ d.chunkLength) :
    replaceEach replace d p xs = { d with
      chunks := d.chunks.modify (p / d.chunkLength)
        (Orthotope.overwrite · (p % d.chunkLength) xs) } := by
  induction xs generalizing d p with
  | nil =>
    show d = { d with chunks := d.chunks.modify _ fun chunk => chunk }
    rw [modify_self _ _ fun _ => rfl]
  | cons x xs ih =>
    rw [replaceEach]
    cases xs with
    | nil => rfl
    | cons y ys =>
      rw [List.length_cons] at h
      have hroom : p % d.chunkLength + 1 < d.chunkLength := by
        rw [List.length_cons] at h
        omega
      obtain ⟨hdiv, hmod⟩ := place_add hroom
      have hrest : (p + 1) % (d.replace p x).chunkLength + (y :: ys).length ≤
          (d.replace p x).chunkLength := by
        rw [chunkLength_replace, hmod]
        omega
      rw [ih _ _ hrest, chunkLength_replace, hdiv, hmod]
      unfold replace
      dsimp only
      rw [modify_modify]
      rfl

/-- A bulk write replaces one element after the other, wherever the chunks end. -/
theorem overwrite_eq (d : Dense α) (p : Nat) (xs : List α) :
    d.overwrite p xs = replaceEach replace d p xs := by
  unfold overwrite pieces
  generalize hn : xs.length = n
  induction n using Nat.strongRecOn generalizing d p xs with
  | ind n ih =>
    by_cases hzero : n = 0
    · subst hzero
      obtain rfl := List.eq_nil_of_length_eq_zero hn
      rw [walk_zero]
      rfl
    have hwithin := d.stride_within (p := p) (n := n)
    have hpos := one_le_stride (fun p _ => d.chunkLength - p % d.chunkLength) p n
    have hstride : stride (fun p _ => d.chunkLength - p % d.chunkLength) p n ≤ n := stride_le hzero
    rw [walk_of_ne_zero hzero]
    generalize stride (fun p _ => d.chunkLength - p % d.chunkLength) p n = m at hwithin hpos hstride
    have hlen : (xs.take m).length = m := by
      rw [List.length_take, hn, Nat.min_eq_left hstride]
    have hpiece := d.replaceEach_within p (hlen ▸ hwithin)
    conv => rhs; rw [← List.take_append_drop m xs, replaceEach_append, hlen, hpiece]
    exact ih (n - m) (by omega) _ (p + m) (xs.drop m) (by rw [List.length_drop, hn])

/-! ## The channel -/

/-- Dense storage of `size` elements holds the elements at its positions. -/
def Holds [Inhabited α] (size : Nat) (d : Dense α) (f : Nat → α) : Prop :=
  d.Covers size ∧ ∀ p < size, d.item p = f p

theorem Holds.replace [Inhabited α] {f : Nat → α} (h : d.Holds size f) (hp : p < size) (x : α) :
    (d.replace p x).Holds size (Function.update f p x) := by
  refine ⟨h.1.replace p x, fun q hq => ?_⟩
  rw [h.1.item_replace hp, Function.update_apply, h.2 q hq]

theorem Holds.serves [Inhabited α] {f : Nat → α} (h : d.Holds size f) :
    (channel size).Serves (Holds size) d f where
  get {p} hp := by
    refine (congrFun (Channel.outcome_checked hp _) d).trans ?_
    rw [Act.outcome_ofEffect, Effect.run_look, h.2 p hp]
  set {p} x hp :=
    ⟨d.replace p x, congrFun (Channel.outcome_checked hp _) d, h.replace hp x⟩
  read {p n} hle := by
    rw [Channel.outcome_readSpan_look (g := fun d => d.items p n) rfl hle, h.1.items_eq hle,
      Channel.map_range'_congr h.2 hle]
  write {p xs} hle := by
    refine ⟨d.overwrite p xs, congrFun (Channel.outcome_writeWithin hle _) d, ?_⟩
    rw [overwrite_eq]
    exact replaceEach_holds (fun x hs hp => hs.replace hp x) h hle
  set_lt hset := Channel.lt_of_checked hset
  write_le hwrite := Channel.le_of_writeWithin hwrite

theorem faithful [Inhabited α] (size : Nat) : (channel (α := α) size).Faithful (Holds size) where
  serves h := h.serves
  congr h hfg := ⟨h.1, fun p hp => (h.2 p hp).trans (hfg p hp)⟩

/-! ## New storage -/

/-- The spans of a walk in strides of one length, by number. -/
theorem getElem?_walk_const {L : Nat} (hL : 0 < L) (p n i : Nat) :
    (walk (fun _ _ => L) p n)[i]? =
      if i * L < n then some ⟨p + i * L, min L (n - i * L)⟩ else none := by
  induction n using Nat.strongRecOn generalizing p i with
  | ind n ih =>
    by_cases hzero : n = 0
    · subst hzero
      rw [walk_zero, if_neg (Nat.not_lt_zero _)]
      rfl
    have hstride : stride (fun _ _ => L) p n = min L n := by
      unfold stride
      dsimp only
      omega
    rw [walk_of_ne_zero hzero, hstride]
    cases i with
    | zero => simp [Nat.pos_of_ne_zero hzero]
    | succ i =>
      rw [List.getElem?_cons_succ, ih (n - min L n) (by omega), Nat.succ_mul]
      rcases Nat.le_total L n with hle | hle
      · have hiff : i * L < n - L ↔ i * L + L < n := by omega
        have hstart : p + L + i * L = p + (i * L + L) := by omega
        have hleft : n - L - i * L = n - (i * L + L) := by omega
        rw [Nat.min_eq_left hle, hstart, hleft]
        simp only [hiff]
      · rw [Nat.min_eq_right hle, Nat.sub_self, if_neg (Nat.not_lt_zero _), if_neg (by omega)]

/-- Storage whose chunks are made span by span holds what the spans are made of. -/
theorem holds_walk [Inhabited α] {f : Nat → α} {g : Span → Array α} (shift n : Nat)
    (hsize : ∀ s, s.start + s.length ≤ n → (g s).size = s.length)
    (hitem : ∀ s i, s.start + s.length ≤ n → i < s.length →
      (g s).getD i default = f (s.start + i)) :
    Holds n ⟨shift, ((walk (fun _ _ => 2 ^ shift) 0 n).map g).toArray⟩ f := by
  have hL : 0 < 2 ^ shift := Nat.two_pow_pos shift
  have hchunk : ∀ p < n, ∃ s : Span, ((walk (fun _ _ => 2 ^ shift) 0 n).map g).toArray.getD
      (p / 2 ^ shift) #[] = g s ∧ s.start + s.length ≤ n ∧ p % 2 ^ shift < s.length ∧
      s.start + p % 2 ^ shift = p := by
    intro p hp
    have hdiv := Nat.div_add_mod' p (2 ^ shift)
    have hmod := Nat.mod_lt p hL
    generalize hq : p / 2 ^ shift * 2 ^ shift = q at hdiv
    refine ⟨⟨q, min (2 ^ shift) (n - q)⟩, ?_, by dsimp only; omega, by dsimp only; omega, hdiv⟩
    rw [Array.getD_eq_getD_getElem?, List.getElem?_toArray, List.getElem?_map,
      getElem?_walk_const hL, hq, if_pos (by omega), Nat.zero_add]
    rfl
  constructor
  · intro p hp
    obtain ⟨s, hs, hle, hlt, -⟩ := hchunk p hp
    unfold chunkLength
    rw [hs, hsize s hle]
    exact hlt
  · intro p hp
    obtain ⟨s, hs, hle, hlt, hstart⟩ := hchunk p hp
    unfold item chunkLength
    rw [hs, hitem s _ hle hlt, hstart]

/-- New storage holds the element that it is filled with. -/
theorem holds_filled [Inhabited α] (x : α) (chunkShift size : Nat) :
    (filled x chunkShift size).Holds size fun _ => x := by
  refine holds_walk _ size (fun s _ => Array.size_replicate) fun s i _ hi => ?_
  simp [Array.getD, hi]

/-- Elements that fit one chunk are held by it. -/
theorem holds_chunk [Inhabited α] {xs : List α} {shift : Nat} (h : xs.length ≤ 2 ^ shift) :
    Holds xs.length ⟨shift, #[xs.toArray]⟩ fun p => xs.getD p default := by
  have hplace : ∀ p < xs.length, p / 2 ^ shift = 0 ∧ p % 2 ^ shift = p := by
    intro p hp
    have hlt : p < 2 ^ shift := Nat.lt_of_lt_of_le hp h
    exact ⟨Nat.div_eq_of_lt hlt, Nat.mod_eq_of_lt hlt⟩
  constructor
  · intro p hp
    obtain ⟨hdiv, hmod⟩ := hplace p hp
    unfold chunkLength
    rw [hdiv, hmod]
    exact hp
  · intro p hp
    obtain ⟨hdiv, hmod⟩ := hplace p hp
    unfold item chunkLength
    rw [hdiv, hmod]
    simp [hp]

/-- New storage holds the elements that it is made of. -/
theorem holds_ofList [Inhabited α] (xs : List α) :
    (ofList xs).Holds xs.length fun p => xs.getD p default := by
  unfold ofList
  split
  · next hle => exact holds_chunk hle
  · refine holds_walk _ xs.length (fun s hle => ?_) fun s i hle hi => ?_
    · simp
      omega
    · simp [Array.getD_eq_getD_getElem?, hi]

/-- Elements that were taken over are held. -/
theorem holds_wrapped [Inhabited α] {xs : List α} (h : xs.length ≤ 2 ^ maxChunkShift) :
    (wrapped xs).Holds xs.length fun p => xs.getD p default := by
  unfold wrapped
  split
  · next hempty =>
    obtain rfl := List.isEmpty_iff.1 hempty
    exact ⟨fun p hp => absurd hp (Nat.not_lt_zero p), fun p hp => absurd hp (Nat.not_lt_zero p)⟩
  · exact holds_chunk h

end Dense

end Orthotope
