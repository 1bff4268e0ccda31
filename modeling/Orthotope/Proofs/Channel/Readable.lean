import Orthotope.Content
import Orthotope.Proofs.Channel.Layers

/-!
# Reads that succeed

Reading may change the state it reads from: a leaf may log its calls, or refuse some positions. What is
asked of a channel whose elements are to be compared is only that there are states in which reads give
the same elements every time. An act yields a value in the states of an invariant if from each of them
it gives the value and leaves one of them (`Act.Yields`). A channel gives elements at some of its
positions if single reads there yield them, and bulk reads that keep to these positions
(`Channel.Gives`). Views and conversions pass that on (`Channel.Gives.through`,
`Channel.Gives.convert`), run by run and block by block.

Going through a channel block by block keeps what each block keeps (`Channel.foldBlocks_rule`). So
comparing two channels tells whether they give the same elements (`Channel.Gives.sameContent`): a block
is compared as long as none before it differs, and what was found so far is what is found of the
positions before the block (`Channel.Compared`).
-/

namespace Orthotope

variable {σ α β : Type} {I : σ → Prop}

namespace Act

/-- From every state of an invariant, an act gives a value and leaves a state of it. -/
def Yields (I : σ → Prop) (a : Act σ α) (x : α) : Prop :=
  ∀ s, I s → ∃ t, a.outcome s = (.ok x, t) ∧ I t

variable {a b : Act σ α} {x y : α}

theorem Yields.pure (x : α) : Yields I (Pure.pure x) x := fun s hs => ⟨s, rfl, hs⟩

theorem Yields.bind {f : α → Act σ β} {z : β} (h : Yields I a x) (hf : Yields I (f x) z) :
    Yields I (a >>= f) z := by
  intro s hs
  obtain ⟨t, hrun, ht⟩ := h s hs
  obtain ⟨u, hrun', hu⟩ := hf t ht
  exact ⟨u, by rw [outcome_bind, hrun, resume_ok, hrun'], hu⟩

theorem Yields.map (h : Yields I a x) (f : α → β) : Yields I (f <$> a) (f x) := by
  rw [map_eq_pure_bind]
  exact h.bind (Yields.pure (f x))

/-- Only outcomes matter. -/
theorem Yields.congr (h : Yields I a x) (hab : b.outcome = a.outcome) : Yields I b x := by
  unfold Yields
  rw [hab]
  exact h

/-- An act yields one value. -/
theorem Yields.unique {s : σ} (hs : I s) (h : Yields I a x) (h' : Yields I a y) : x = y := by
  obtain ⟨t, hrun, -⟩ := h s hs
  obtain ⟨t', hrun', -⟩ := h' s hs
  rw [hrun] at hrun'
  exact Except.ok.inj (Prod.mk.inj hrun').1

end Act

namespace Channel

/-- In the states of an invariant, single reads of the positions for which `ok` holds give `f`, and so do
bulk reads of some of these positions. -/
structure Gives (c : Channel σ α) (I : σ → Prop) (ok : Nat → Prop) (f : Nat → α) : Prop where
  lt : ∀ {p}, ok p → p < c.size
  get : ∀ {p}, ok p → Act.Yields I (c.get p) (f p)
  read : ∀ {p n}, 0 < n → (∀ q, p ≤ q → q < p + n → ok q) →
    Act.Yields I (c.readSpan ⟨p, n⟩) ((List.range' p n).map f)

variable {c d : Channel σ α} {ok : Nat → Prop} {f g : Nat → α} {p n : Nat}

/-- Elements are also given at fewer positions. -/
theorem Gives.mono {ok' : Nat → Prop} (h : c.Gives I ok f) (hok : ∀ p, ok' p → ok p) :
    c.Gives I ok' f where
  lt hp := h.lt (hok _ hp)
  get hp := h.get (hok _ hp)
  read hn hall := h.read hn fun q hq hlt => hok q (hall q hq hlt)

/-- The first few elements of a stretch and the others. -/
theorem map_range'_append {m : Nat} (f : Nat → α) (hle : m ≤ n) :
    (List.range' p m).map f ++ (List.range' (p + m) (n - m)).map f = (List.range' p n).map f := by
  rw [← List.map_append, List.range'_append_1, Nat.add_sub_cancel' hle]

/-! ## Layers -/

section
variable {v : View} {logged : Bool}

/-- Reading run by run gives the elements that the view shows. -/
theorem Gives.readRuns (h : c.Gives I ok f) (hv : v.Fits) (hle : p + n ≤ v.size)
    (hok : ∀ q, p ≤ q → q < p + n → ok (v.position q)) :
    Act.Yields I (Act.complete (c.readRuns (v.runs p n)))
      ((List.range' p n).map fun q => f (v.position q)) := by
  induction n using Nat.strongRecOn generalizing p with
  | ind n ih =>
    by_cases hn : n = 0
    · subst hn
      rw [v.runs_zero]
      exact Act.Yields.pure []
    have hpos : 1 ≤ stride v.reach p n := one_le_stride ..
    have hstride : stride v.reach p n ≤ n := stride_le hn
    have hrun : ∀ i < stride v.reach p n, v.position (p + i) = v.position p + i := fun i hi =>
      hv.position_stride (by omega) hi
    have hfirst : (List.range' (v.position p) (stride v.reach p n)).map f =
        (List.range' p (stride v.reach p n)).map fun q => f (v.position q) := by
      refine List.ext_getElem (by simp) fun i hi _ => ?_
      rw [List.length_map, List.length_range'] at hi
      simp [hrun i hi]
    have hread := h.read (p := v.position p) hpos fun q hq hlt => by
      obtain ⟨i, rfl⟩ := Nat.exists_eq_add_of_le hq
      rw [← hrun i (by omega)]
      exact hok (p + i) (by omega) (by omega)
    have hrest := ih (n - stride v.reach p n) (by omega) (p := p + stride v.reach p n) (by omega)
      fun q hq hlt => hok q (by omega) (by omega)
    rw [v.runs_of_ne_zero p hn, complete_readRuns_cons,
      ← map_range'_append (fun q => f (v.position q)) hstride, ← hfirst]
    exact hread.bind (hrest.bind (Act.Yields.pure _))

/-- A view that fits gives what the channel beneath gives at the positions that it shows. -/
theorem Gives.through (h : c.Gives I ok f) (hv : v.Fits) :
    (c.through v logged).Gives I (fun p => p < v.size ∧ ok (v.position p)) fun p => f (v.position p) where
  lt hp := hp.1
  get hp := by
    rw [get_through c hp.1]
    exact h.get hp.2
  read {p n} hn hok := by
    have hle : p + n ≤ v.size := by
      have hlast := (hok (p + n - 1) (by omega) (by omega)).1
      omega
    have hread : (c.through v logged).read p n = readWithin v.size p n (do
      if logged then Effect.note (.flattened v.transform.name p n)
      c.readRuns (v.runs p n)) := rfl
    rw [readSpan_eq, hread, complete_readWithin, checkRange, if_pos hle]
    exact (h.readRuns hv hle fun q hq hlt => (hok q hq hlt).2).congr (outcome_complete_note ..)

end

section
variable {into : α → β} {back : β → α} {log : Nat → Nat → List Event}

/-- Reading block by block, wherever the blocks end, gives the elements converted. -/
theorem Gives.readBlocks (h : c.Gives I ok f) (into : α → β) (reach : Nat → Nat → Nat)
    (hok : ∀ q, p ≤ q → q < p + n → ok q) :
    Act.Yields I (Act.complete (c.readBlocks into (walk reach p n)))
      ((List.range' p n).map fun q => into (f q)) := by
  induction n using Nat.strongRecOn generalizing p with
  | ind n ih =>
    by_cases hn : n = 0
    · subst hn
      rw [walk_zero]
      exact Act.Yields.pure []
    have hpos : 1 ≤ stride reach p n := one_le_stride ..
    have hstride : stride reach p n ≤ n := stride_le hn
    have hread := h.read hpos fun q hq hlt => hok q hq (by omega)
    have hrest := ih (n - stride reach p n) (by omega) (p := p + stride reach p n)
      fun q hq hlt => hok q (by omega) (by omega)
    have hfirst : ((List.range' p (stride reach p n)).map f).map into =
        (List.range' p (stride reach p n)).map fun q => into (f q) := List.map_map
    rw [walk_of_ne_zero hn, complete_readBlocks_cons, ← map_range'_append _ hstride, ← hfirst]
    exact hread.bind (hrest.bind (Act.Yields.pure _))

theorem Gives.convert (h : c.Gives I ok f) :
    (c.convert into back log).Gives I ok fun p => into (f p) where
  lt := h.lt
  get hp := (h.get hp).map into
  read {p n} hn hok := by
    have hle : p + n ≤ c.size := by
      have hlast := h.lt (hok (p + n - 1) (by omega) (by omega))
      omega
    have hread : (c.convert into back log).read p n = readWithin c.size p n (do
      (log p n).forM Effect.note
      c.readBlocks into (blocks p n)) := rfl
    rw [readSpan_eq, hread, complete_readWithin, checkRange, if_pos hle]
    exact (h.readBlocks into _ hok).congr (outcome_complete_notes ..)

end

/-! ## Block by block -/

/-- Going through a channel block by block, what every block keeps holds in the end of all positions. -/
theorem foldBlocks_rule {P : Nat → β → σ → Prop} {step : β → List α → Act σ β}
    (hstep : ∀ {pos n acc s}, 0 < n → pos + n ≤ c.size → P pos acc s →
      ∃ acc' t, (do step acc (← c.readSpan ⟨pos, n⟩)).outcome s = (.ok acc', t) ∧ P (pos + n) acc' t)
    {start : β} {s : σ} (hstart : P 0 start s) :
    ∃ acc t, (c.foldBlocks step start).outcome s = (.ok acc, t) ∧ P c.size acc t := by
  have hall : ∀ left pos acc s, pos + left = c.size → P pos acc s →
      ∃ acc' t, ((blocks pos left).foldlM (fun acc s => do step acc (← c.readSpan s)) acc).outcome s =
        (.ok acc', t) ∧ P c.size acc' t := by
    intro left
    induction left using Nat.strongRecOn with
    | ind left ih =>
      intro pos acc s hsize hP
      by_cases hleft : left = 0
      · subst hleft
        obtain rfl : pos = c.size := hsize
        rw [blocks, walk_zero]
        exact ⟨acc, s, rfl, hP⟩
      have hpos : 1 ≤ stride (fun _ _ => blockLength) pos left := one_le_stride ..
      have hstride : stride (fun _ _ => blockLength) pos left ≤ left := stride_le hleft
      obtain ⟨acc', t, hrun, hP'⟩ := hstep hpos (by omega) hP
      obtain ⟨acc'', u, hrest, hP''⟩ := ih (left - stride (fun _ _ => blockLength) pos left) (by omega)
        (pos + stride (fun _ _ => blockLength) pos left) acc' t (by omega) hP'
      refine ⟨acc'', u, ?_, hP''⟩
      rw [blocks, walk_of_ne_zero hleft, List.foldlM_cons, Act.outcome_bind, hrun]
      exact hrest
  exact hall c.size 0 start s (Nat.zero_add _) hstart

/-- All pairs of a stretch are the same just if the elements at each of its positions are. -/
theorem all_zip_range' (same : α → α → Bool) (f g : Nat → α) (p n : Nat) :
    ((((List.range' p n).map f).zip ((List.range' p n).map g)).all fun (x, y) => same x y) = true ↔
      ∀ q, p ≤ q → q < p + n → same (f q) (g q) = true := by
  rw [List.zip_map', List.all_map, List.all_eq_true]
  simp only [List.mem_range'_1, Function.comp_apply, and_imp]

/-- What a comparison does with one block of the first channel. -/
def compareBlock (d : Channel σ α) (same : α → α → Bool) : Nat × Bool → List α → Act σ (Nat × Bool) :=
  fun (pos, equal) xs => do
    let equal ←
      if equal then do
        let ys ← d.readSpan ⟨pos, xs.length⟩
        pure ((xs.zip ys).all fun (x, y) => same x y)
      else pure false
    return (pos + xs.length, equal)

theorem sameContent_eq (c d : Channel σ α) (same : α → α → Bool) :
    c.sameContent d same = (c.foldBlocks (d.compareBlock same) (0, true) >>= fun acc => pure acc.2) := rfl

/-- A comparison has come to a position, and what it found so far is what is found of the positions
before. -/
structure Compared (same : α → α → Bool) (f g : Nat → α) (pos : Nat) (acc : Nat × Bool) : Prop where
  position : acc.1 = pos
  found : acc.2 = true ↔ ∀ p < pos, same (f p) (g p) = true

theorem Compared.start (same : α → α → Bool) (f g : Nat → α) : Compared same f g 0 (0, true) :=
  ⟨rfl, by simp⟩

/-- What is found before a block and in it is what is found before the end of the block. -/
theorem Compared.next {same : α → α → Bool} {equal : Bool} (h : Compared same f g p (p, equal)) (n : Nat) :
    Compared same f g (p + n) (p + n,
      equal && (((List.range' p n).map f).zip ((List.range' p n).map g)).all fun (x, y) => same x y) := by
  refine ⟨rfl, ?_⟩
  rw [Bool.and_eq_true, h.found, all_zip_range']
  constructor
  · rintro ⟨hbefore, hhere⟩ q hq
    rcases Nat.lt_or_ge q p with hlt | hge
    · exact hbefore q hlt
    · exact hhere q hge hq
  · exact fun h => ⟨fun q hq => h q (by omega), fun q _ hq => h q hq⟩

/-- A comparison goes on over one block, which it does not read any more once something was not the
same. -/
theorem Gives.compareBlock {same : α → α → Bool} {acc : Nat × Bool} (hd : d.Gives I (· < d.size) g)
    (h : Compared same f g p acc) (hn : 0 < n) (hle : p + n ≤ d.size) :
    ∃ acc', Act.Yields I (d.compareBlock same acc ((List.range' p n).map f)) acc' ∧
      Compared same f g (p + n) acc' := by
  obtain ⟨p, equal⟩ := acc
  obtain rfl := h.position
  refine ⟨_, ?_, h.next n⟩
  have hlen : ((List.range' p n).map f).length = n := by simp
  unfold Channel.compareBlock
  rw [hlen]
  cases equal with
  | false => exact Act.Yields.pure _
  | true =>
    have hother := hd.read hn fun q _ hlt => Nat.lt_of_lt_of_le hlt hle
    exact hother.bind (Act.Yields.pure _)

/-- Comparing two channels that give elements at all positions tells whether they are the same. -/
theorem Gives.sameContent (hc : c.Gives I (· < c.size) f) (hd : d.Gives I (· < d.size) g)
    (hsize : c.size = d.size) (same : α → α → Bool) {s : σ} (hs : I s) :
    ∃ v t, (c.sameContent d same).outcome s = (.ok v, t) ∧ I t ∧
      (v = true ↔ ∀ p < c.size, same (f p) (g p) = true) := by
  have hstep : ∀ {p n acc s}, 0 < n → p + n ≤ c.size → Compared same f g p acc ∧ I s →
      ∃ acc' t, (do d.compareBlock same acc (← c.readSpan ⟨p, n⟩)).outcome s = (.ok acc', t) ∧
        Compared same f g (p + n) acc' ∧ I t := by
    rintro p n acc s hn hle ⟨h, hs⟩
    have hread := hc.read hn fun q _ hlt => Nat.lt_of_lt_of_le hlt hle
    obtain ⟨acc', hblock, h'⟩ := hd.compareBlock h hn (hsize ▸ hle)
    obtain ⟨t, hrun, ht⟩ := hread.bind hblock s hs
    exact ⟨acc', t, hrun, h', ht⟩
  obtain ⟨acc, t, hrun, h, ht⟩ :=
    foldBlocks_rule (P := fun p acc s => Compared same f g p acc ∧ I s) hstep ⟨.start same f g, hs⟩
  refine ⟨acc.2, t, ?_, ht, h.found⟩
  rw [sameContent_eq, Act.outcome_bind, hrun]
  rfl

end Channel

end Orthotope
