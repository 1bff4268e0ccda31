import Orthotope.Proofs.Cube.Coherence
import Orthotope.Proofs.Store.Made
import Orthotope.Proofs.Store.Session

/-!
# Copying between views of one leaf

A copy goes block by block: the elements of a block are all read before the first of them is written,
but blocks that come later are read after that. If the two cubes show the same leaf, a later block may
read what an earlier one wrote. `CopiedFrom` says what the leaf holds afterwards. A position takes the
element that its source had before, unless an earlier block wrote to the source; then it takes what was
written there.

Copying one block and then the others is copying all of them (`CopiedFrom.step`). So a copy between cubes
of the same shape always succeeds (`Chain.copyFrom_copied`), with the elements that
`Chain.copyFrom_blockwise` says. Up to one block, or if no position is read after it was written, these
are the elements of the source.
-/

namespace Orthotope

/-! ## Contents -/

/-- The first position of the block that a position lies in. -/
def blockStart (p : Nat) : Nat := p / blockLength * blockLength

theorem blockStart_le (p : Nat) : blockStart p ≤ p := Nat.div_mul_le_self ..

/-- A block starts at its first position. -/
theorem blockStart_eq {pos p : Nat} (hpos : blockLength ∣ pos) (hle : pos ≤ p)
    (hlt : p < pos + blockLength) : blockStart p = pos := by
  obtain ⟨m, rfl⟩ := hpos
  simp only [blockStart, blockLength] at *
  omega

/-- No block goes beyond the start of another. -/
theorem le_blockStart {pos p : Nat} (hpos : blockLength ∣ pos) (hle : pos ≤ p) :
    pos ≤ blockStart p := by
  obtain ⟨m, rfl⟩ := hpos
  simp only [blockStart, blockLength] at *
  omega

/-- The contents `f'` after a copy block by block into contents `f`, of the positions from `pos` on.
Position `p` goes to the place `target p` and comes from the place `source p`. -/
structure CopiedFrom {α : Type} (target source : Nat → Nat) (pos size : Nat) (f f' : Nat → α) :
    Prop where
  /-- Other places keep their element. -/
  apart : ∀ place, (∀ p, pos ≤ p → p < size → target p ≠ place) → f' place = f place
  /-- If an earlier block goes to the source, what it put there is copied. -/
  earlier : ∀ p q, pos ≤ q → q < blockStart p → p < size → target q = source p →
    f' (target p) = f' (target q)
  /-- Otherwise the element is copied that was there before. -/
  fresh : ∀ p, pos ≤ p → p < size → (∀ q, pos ≤ q → q < blockStart p → target q ≠ source p) →
    f' (target p) = f (source p)

section
variable {α : Type} {target source : Nat → Nat} {pos size n : Nat} {f f' : Nat → α}

theorem CopiedFrom.refl (h : size ≤ pos) : CopiedFrom target source pos size f f where
  apart _ _ := rfl
  earlier p q hq hstart hp _ := by
    have := blockStart_le p
    omega
  fresh p hle hp _ := by omega

/-- Copying one block and then the others is copying all. -/
theorem CopiedFrom.step (hpos : blockLength ∣ pos) (hle : pos + n ≤ size)
    (hn : n = blockLength ∨ n ≤ blockLength ∧ pos + n = size)
    (hinj : ∀ p q, p < size → q < size → target p = target q → p = q)
    (h : CopiedFrom target source (pos + n) size
      (scatter (fun i => target (pos + i)) f ((List.range' pos n).map fun q => f (source q))) f') :
    CopiedFrom target source pos size f f' := by
  have hlen : ((List.range' pos n).map fun q => f (source q)).length = n := by simp
  have hplaces : ∀ i < n, ∀ j < n, target (pos + i) = target (pos + j) → i = j := by
    intro i hi j hj heq
    have := hinj _ _ (by omega) (by omega) heq
    omega
  have hother : ∀ place, (∀ p, pos ≤ p → p < pos + n → target p ≠ place) →
      scatter (fun i => target (pos + i)) f ((List.range' pos n).map fun q => f (source q)) place =
        f place := by
    intro place hplace
    refine scatter_of_ne fun i hi => hplace (pos + i) (Nat.le_add_right ..) ?_
    rw [hlen] at hi
    omega
  -- What the first block writes is what its sources held before, and it stays.
  have hfirst : ∀ i < n,
      scatter (fun i => target (pos + i)) f ((List.range' pos n).map fun q => f (source q))
        (target (pos + i)) = f (source (pos + i)) := by
    intro i hi
    refine (scatter_place (hlen.symm ▸ hi) (by rwa [hlen])).trans ?_
    simp
  have hstays : ∀ i < n, f' (target (pos + i)) =
      scatter (fun i => target (pos + i)) f ((List.range' pos n).map fun q => f (source q))
        (target (pos + i)) := by
    refine fun i hi => h.apart _ fun p hp hlt heq => ?_
    have := hinj _ _ hlt (by omega) heq
    omega
  have hlater : ∀ {p}, pos ≤ p → p < size → pos + n ≤ p → pos + n ≤ blockStart p := by
    intro p hp hlt hge
    obtain rfl : n = blockLength := by omega
    exact le_blockStart (Nat.dvd_add hpos (Nat.dvd_refl _)) hge
  refine ⟨fun place hplace => ?apart, fun p q hq hstart hp heq => ?earlier,
    fun p hp hlt hnone => ?fresh⟩
  case apart =>
    rw [h.apart place fun p hp => hplace p (by omega)]
    exact hother place fun p hp hlt => hplace p hp (by omega)
  case earlier =>
    have hself := blockStart_le p
    rcases Nat.lt_or_ge q (pos + n) with hqn | hqn
    · have hpn : pos + n ≤ p := by
        rcases Nat.lt_or_ge p (pos + n) with hpn | hpn
        · have := blockStart_eq hpos (by omega) (show p < pos + blockLength by omega)
          omega
        · exact hpn
      obtain ⟨i, rfl⟩ := Nat.exists_eq_add_of_le hq
      rw [h.fresh p hpn hp, ← heq, hstays i (by omega)]
      intro q' hq' hstart' heq'
      have := hinj _ _ (by omega) (by omega) (heq'.trans heq.symm)
      omega
    · exact h.earlier p q hqn hstart hp heq
  case fresh =>
    rcases Nat.lt_or_ge p (pos + n) with hpn | hpn
    · obtain ⟨i, rfl⟩ := Nat.exists_eq_add_of_le hp
      rw [hstays i (by omega), hfirst i (by omega)]
    · have hstart := hlater hp hlt hpn
      rw [h.fresh p hpn hlt fun q hq => hnone q (by omega)]
      exact hother _ fun q hq hqn => hnone q hq (by omega)

end

/-! ## Copies -/

namespace Chain

variable {k : Kind} {slot : Nat} {dims : List Dimension} {c dst src : Cube k}
  {ops ops' : List Derivation} {s : Store} {f : Nat → k.Elem} {pos n : Nat}

/-- A read in range gives what the leaf holds at the origins, which it holds afterwards too. -/
theorem readSpan_holds (h : Chain (.leaf k slot dims) ops c) (hs : s.Holds k slot (shapeOf dims) f)
    (hle : pos + n ≤ c.size) :
    ∃ t, (c.elements.raw.readSpan ⟨pos, n⟩).outcome s =
        (.ok ((List.range' pos n).map fun q => f (c.origin q)), t) ∧
      t.Holds k slot (shapeOf dims) f := by
  rw [← h.size_raw] at hle
  have hsteady : c.elements.raw.Steady
      (Channel.HoldSame fun s f => s.Holds k slot (shapeOf dims) f) :=
    h.fits.steady h.size_floor h.faithful_floor.steady
  obtain ⟨hvalue, hstate⟩ := hsteady.read hle s s ⟨f, hs, hs⟩
  rw [Channel.itemsEach_outcome (h.shows hs).get hle] at hvalue hstate
  exact ⟨((c.elements.raw.readSpan ⟨pos, n⟩).outcome s).2, Prod.ext hvalue rfl,
    h.faithful_floor.holds_of_holdSame hstate hs⟩

/-- The blocks of a copy from `pos` on. -/
theorem copyBlocks_copied (hdst : Chain (.leaf k slot dims) ops dst)
    (hsrc : Chain (.leaf k slot dims) ops' src) (hsize : src.size = dst.size)
    (hs : s.Holds k slot (shapeOf dims) f) (hpos : n ≠ 0 → blockLength ∣ pos)
    (hend : pos + n = dst.size) :
    ∃ last t f', ((blocks pos n).foldlM (fun pos span => do
        let xs ← src.elements.raw.readSpan span
        dst.elements.raw.write pos xs
        return pos + xs.length) pos).outcome s = (.ok last, t) ∧
      t.Holds k slot (shapeOf dims) f' ∧ CopiedFrom dst.origin src.origin pos dst.size f f' := by
  unfold blocks
  induction n using Nat.strongRecOn generalizing pos s f with
  | ind n ih =>
    by_cases hzero : n = 0
    · subst hzero
      rw [walk_zero]
      exact ⟨pos, s, f, rfl, hs, .refl (Nat.le_of_eq hend.symm)⟩
    rw [walk_of_ne_zero hzero]
    have hone := one_le_stride (fun _ _ => blockLength) pos n
    have hstride : stride (fun _ _ => blockLength) pos n ≤ n := stride_le hzero
    have hblock : stride (fun _ _ => blockLength) pos n = blockLength ∨
        stride (fun _ _ => blockLength) pos n ≤ blockLength ∧
          stride (fun _ _ => blockLength) pos n = n := by
      simp only [stride, blockLength]
      omega
    generalize stride (fun _ _ => blockLength) pos n = m at hone hstride hblock ⊢
    obtain ⟨t, hread, ht⟩ := hsrc.readSpan_holds hs (show pos + m ≤ src.size by omega)
    have hlen : ((List.range' pos m).map fun q => f (src.origin q)).length = m := by simp
    have hrange : (Writing.write pos ((List.range' pos m).map fun q => f (src.origin q))).InRange
        dst.shape := show pos + _ ≤ dst.size by omega
    obtain ⟨t', hwrite, ht'⟩ := hdst.fits.run_scatter hdst.size_floor hdst.faithful_floor ht hrange
    have hwrite : (dst.elements.raw.write pos
      ((List.range' pos m).map fun q => f (src.origin q))).outcome t = (.ok (), t') := hwrite
    have hrest : n - m ≠ 0 → blockLength ∣ pos + m := fun hne => by
      obtain rfl : m = blockLength := by omega
      exact Nat.dvd_add (hpos hzero) (Nat.dvd_refl _)
    obtain ⟨last, t'', f', hrun, hheld, hcopied⟩ := ih (n - m) (by omega) ht' hrest (by omega)
    refine ⟨last, t'', f', ?_, hheld, hcopied.step (hpos hzero) (by omega) (by omega)
      fun p q => hdst.fits.origin_injective⟩
    simp only [List.foldlM_cons, Act.outcome_bind, hread, Act.resume_ok, hwrite, Act.outcome_pure,
      hlen]
    exact hrun

/-- A copy between cubes over one leaf with the same shape succeeds, and the leaf holds afterwards what
was copied block by block. -/
theorem copyFrom_copied (hdst : Chain (.leaf k slot dims) ops dst)
    (hsrc : Chain (.leaf k slot dims) ops' src) (hshape : dst.shape = src.shape) {w : Workspace}
    (hs : w.store.Holds k slot (shapeOf dims) f) :
    ∃ t f', (Session.copyFrom dst src).outcome w = (.ok (), t) ∧
      t.Holds k slot (shapeOf dims) f' ∧ CopiedFrom dst.origin src.origin 0 dst.size f f' := by
  have hsize : src.size = dst.size := congrArg sizeOf hshape.symm
  obtain ⟨last, t, f', hrun, hheld, hcopied⟩ := hdst.copyBlocks_copied hsrc hsize hs
    (fun _ => Nat.dvd_zero _) (Nat.zero_add _)
  refine ⟨t, f', ?_, hheld, hcopied⟩
  rw [Session.outcome_copyFrom, Channel.checkSameShape_eq_ok_iff.2 hshape]
  show (dst.elements.raw.copyFrom src.elements.raw).outcome w.store = _
  rw [Channel.copyFrom, Channel.foldBlocks, hsrc.size_raw, hsize, Act.outcome_bind]
  refine (congrArg (Act.resume _) hrun).trans ?_
  rfl

/-- A copy between cubes over one leaf with the same shape succeeds. Each element of the target becomes
what the source had there before, unless the target showed the same position of the leaf in an earlier
block. Then it becomes what was copied there. -/
theorem copyFrom_blockwise (hdst : Chain (.leaf k slot dims) ops dst)
    (hsrc : Chain (.leaf k slot dims) ops' src) (hshape : dst.shape = src.shape) {w : Workspace}
    (hs : w.store.Holds k slot (shapeOf dims) f) :
    ∃ t before after, (Session.copyFrom dst src).outcome w = (.ok (), t) ∧
      src.elements.raw.Shows w.store before ∧ dst.elements.raw.Shows t after ∧
      ∀ p < dst.size,
        (∀ q < blockStart p, dst.origin q = src.origin p → after p = after q) ∧
        ((∀ q < blockStart p, dst.origin q ≠ src.origin p) → after p = before p) := by
  obtain ⟨t, f', hrun, hheld, hcopied⟩ := hdst.copyFrom_copied hsrc hshape hs
  refine ⟨t, _, _, hrun, hsrc.shows hs, hdst.shows hheld, fun p hp =>
    ⟨fun q hq heq => ?_, fun hnone => ?_⟩⟩
  · exact hcopied.earlier p q (Nat.zero_le q) hq hp heq
  · exact hcopied.fresh p (Nat.zero_le p) hp fun q _ hq => hnone q hq

/-- Four elements are moved on by one position, from a roll of the leaf to the leaf itself. -/
theorem copyFrom_blockwise_rolled :
    let leaf : Cube .i32 := .leaf .i32 0 [.ofLength 4]
    let src := leaf.rollFlat 0 1
    let items : List Int32 := [10, 20, 30, 40]
    let w : Workspace := { store := (({} : Store).add (.dense (.ofList items) : Leaf .i32)).2 }
    ∃ t, (Session.copyFrom leaf src).outcome w = (.ok (), t) ∧
      (leaf.elements.raw.get 0).outcome t = (.ok 40, t) ∧
      (leaf.elements.raw.get 3).outcome t = (.ok 30, t) := by
  intro leaf src items w
  have hsrc : Chain leaf [.rollFlat 1] src :=
    .cons (rfl : (Derivation.rollFlat 1).make 0 leaf = .ok src) .nil
  have hs : w.store.Holds .i32 0 [4] fun p => items.getD p default :=
    ⟨_, rfl, Dense.holds_ofList _⟩
  obtain ⟨t, before, after, hrun, hbefore, hafter, hcopied⟩ :=
    copyFrom_blockwise (.nil : Chain leaf [] leaf) hsrc (by decide) hs
  have hshown : ∀ {p}, p < 4 → before p = items.getD (src.origin p) default := by
    intro p hp
    have hget := (hbefore.get hp).symm.trans ((hsrc.shows hs).get hp)
    exact Except.ok.inj (congrArg Prod.fst hget)
  have hfresh : ∀ p < 4, after p = before p := fun p hp =>
    (hcopied p hp).2 fun q hq => by
      have hone : blockStart p = 0 := blockStart_eq (Nat.dvd_zero _) (Nat.zero_le p) (by
        rw [blockLength]
        omega)
      omega
  refine ⟨t, hrun, ?_, ?_⟩
  · rw [hafter.get (by decide), hfresh 0 (by decide), hshown (by decide)]
    rfl
  · rw [hafter.get (by decide), hfresh 3 (by decide), hshown (by decide)]
    rfl

/-- Of 1025 elements that are moved on by one position, the last becomes a copy of the one before it,
which was moved with the block before. -/
theorem copyFrom_repeats_across_blocks :
    let leaf : Cube .i32 := .leaf .i32 0 [.ofLength 1025]
    let src := leaf.rollFlat 0 1
    let items := (List.range 1025).map Int32.ofNat
    let w : Workspace := { store := (({} : Store).add (.dense (.ofList items) : Leaf .i32)).2 }
    Chain leaf [] leaf ∧ Chain leaf [.rollFlat 1] src ∧ leaf.shape = src.shape ∧
      (src.elements.raw.get 1024).outcome w.store = (.ok 1023, w.store) ∧
      ∃ t, (Session.copyFrom leaf src).outcome w = (.ok (), t) ∧
        (leaf.elements.raw.get 1024).outcome t = (.ok 1022, t) := by
  intro leaf src items w
  have hleaf : Chain leaf [] leaf := .nil
  have hsrc : Chain leaf [.rollFlat 1] src :=
    .cons (rfl : (Derivation.rollFlat 1).make 0 leaf = .ok src) .nil
  have hitem : ∀ p < 1025, items.getD p default = Int32.ofNat p := by
    intro p hp
    simp [items, hp]
  have hs : w.store.Holds .i32 0 [1025] fun p => items.getD p default := by
    have hholds := Dense.holds_ofList items
    rw [show items.length = sizeOf [1025] by simp [items]] at hholds
    exact ⟨_, rfl, hholds⟩
  obtain ⟨t, f', hrun, hheld, hcopied⟩ := hleaf.copyFrom_copied hsrc (by decide) hs
  refine ⟨hleaf, hsrc, by decide, ?_, t, hrun, ?_⟩
  · rw [(hsrc.shows hs).get (by decide), show src.origin 1024 = 1023 by decide,
      hitem 1023 (by decide)]
    rfl
  · have hlast : f' 1024 = f' 1023 :=
      hcopied.earlier 1024 1023 (by decide) (by decide) (by decide) (by decide)
    have hmoved : f' 1023 = items.getD 1022 default :=
      hcopied.fresh 1023 (by decide) (by decide) fun q _ hq => absurd hq (Nat.not_lt_zero q)
    rw [(hleaf.shows hheld).get (by decide), show leaf.origin 1024 = 1024 from rfl, hlast, hmoved,
      hitem 1022 (by decide)]
    rfl

end Chain

end Orthotope
