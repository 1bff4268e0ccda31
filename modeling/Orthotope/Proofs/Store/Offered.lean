import Orthotope.Proofs.Cube.Alike
import Orthotope.Proofs.Cube.AllOrNothing
import Orthotope.Proofs.Store.Mapped

/-!
# What cubes over storage do at least

Storage that was made gives an element at every position and refuses single accesses out of range
(`Access.Ready`). Views that fit and conversions keep this (`Cube.Fits.ready`), so that every cube that
a store offers is ready (`Store.Offers.ready`), and bulk reads of it give what single reads give
(`Store.Offers.shows`).

Stores are compared by their leaves and by the bytes of their files, which is a likeness as long as the
storage of a slot is sound (`Store.likeness_alike`). The storage of a mapping that may only be read is
compared in the one state that it stays in (`Channel.Fixed`). Up to either, bulk transfers come to single
accesses (`Store.Offers.likeness`).
-/

namespace Orthotope

variable {σ α : Type} {k k₀ : Kind} {s t : Store} {slot : Nat} {shape : List Nat} {dims : List Dimension}

/-! ## Storage that is ready -/

/-- In a state, a single read in range gives an element, and single accesses out of range are refused.
The state stays as it is. -/
structure Access.Ready (a : Access σ α) (s : σ) : Prop where
  get : ∀ {p}, p < a.raw.size → ∃ x, (a.raw.get p).outcome s = (.ok x, s)
  bounded : a.Bounded s

namespace Access

variable {a : Access σ α} {u : σ}

theorem ready_of_plain {inv inv' : σ → Prop} {item : σ → Nat → α} {replace : σ → Nat → α → σ}
    {item' : σ → Nat → Option α} {replace' : σ → Nat → Option α → σ}
    (hraw : a.raw.Plain inv item replace) (hnullable : a.nullable.Plain inv' item' replace')
    (hu : inv u) : a.Ready u :=
  ⟨fun hp => ⟨_, (hraw.shows hu).get hp⟩, hraw.bounded u, hnullable.bounded u⟩

theorem Ready.through (h : a.Ready u) {v : View} (hv : v.Fits) (hsize : a.raw.size = sizeOf v.source) :
    (a.through v).Ready u where
  get {p} hp := by
    obtain ⟨x, hget⟩ := h.get (hsize ▸ hv.position_lt hp)
    exact ⟨x, (congrFun (Channel.outcome_checked hp _) u).trans hget⟩
  bounded := a.bounded_through v u

theorem Ready.convert {source : Kind} {a : Access σ source.Elem} (h : a.Ready u) (target : Kind) :
    (a.convert target).Ready u where
  get {p} hp := by
    obtain ⟨x, hget⟩ := h.get (p := p) hp
    refine ⟨source.convert target x, ?_⟩
    show (source.convert target <$> a.raw.get p).outcome u = _
    rw [Act.outcome_map, hget]
    rfl
  bounded := h.bounded.convert target

end Access

/-- A mapping is ready, whatever its file is and whether it may be written or not. -/
theorem Mapping.ready (m : Mapping) (k : Kind) (shape : List Nat) (files : Files) :
    (m.access k shape).Ready files := by
  have hraw : (m.channel k (sizeOf shape)).Bounded files :=
    ⟨fun hp => Channel.outcome_refused hp _ files, fun _ hp => Channel.outcome_refused hp _ files⟩
  exact ⟨fun hp => ⟨_, congrFun (Channel.outcome_checked hp _) files⟩, hraw,
    (hraw.orNull k.null).stepwise⟩

namespace Cube

variable {c : Cube k} {slots : (k : Kind) → Nat → List Nat → Access σ k.Elem} {u : σ}

/-- Stacks of layers refuse what is out of range if the leaf does. -/
theorem bounded (hbottom : c.bottom = (k₀, slot, dims))
    (hleaf : (slots k₀ slot (shapeOf dims)).Bounded u) : (c.access slots).Bounded u := by
  induction c with
  | leaf =>
    obtain ⟨rfl, rfl, rfl⟩ : _ ∧ _ ∧ _ := by simpa [bottom] using hbottom
    exact hleaf
  | view serial inner dims transform => exact Access.bounded_through _ _ u
  | cast serial inner target ih => exact (ih hbottom).convert target

/-- A stack of views that fit and conversions is ready if the leaf is. -/
theorem Fits.ready (h : c.Fits) (hbottom : c.bottom = (k₀, slot, dims))
    (hleaf : (Store.access k₀ slot (shapeOf dims)).Ready s) : c.elements.Ready s := by
  induction c with
  | leaf =>
    obtain ⟨rfl, rfl, rfl⟩ : _ ∧ _ ∧ _ := by simpa [bottom] using hbottom
    exact hleaf
  | view serial inner dims transform ih =>
    exact (ih h.1 hbottom).through h.2 inner.size_raw_elements
  | cast serial inner target ih => exact (ih h hbottom).convert target

end Cube

/-! ## Storage that takes no writes -/

namespace Channel

/-- In a state, reads in range give `f`, writes in range of at least one element fail, and the state
stays as it is. -/
structure Fixed (c : Channel σ α) (s : σ) (f : Nat → α) : Prop where
  get : ∀ {p}, p < c.size → (c.get p).outcome s = (.ok (f p), s)
  read : ∀ {p n}, p + n ≤ c.size →
    (c.readSpan ⟨p, n⟩).outcome s = (.ok ((List.range' p n).map f), s)
  set : ∀ {p} x, p < c.size → (c.set p x).outcome s = (.error .readOnly, s)
  write : ∀ {p xs}, xs ≠ [] → p + xs.length ≤ c.size →
    (c.write p xs).outcome s = (.error .readOnly, s)

variable {c : Channel σ α} {u : σ} {f : Nat → α}

theorem Fixed.writeEach (h : c.Fixed u f) {p : Nat} {xs : List α} (hxs : xs ≠ [])
    (hle : p + xs.length ≤ c.size) : (c.writeEach p xs).outcome u = (.error .readOnly, u) := by
  cases xs with
  | nil => exact absurd rfl hxs
  | cons x xs =>
    rw [List.length_cons] at hle
    rw [Channel.writeEach, Act.outcome_bind, h.set x (by omega)]
    rfl

/-- Bulk transfers come to single accesses in that state. -/
theorem Fixed.uniform (h : c.Fixed u f) : c.Uniform fun s t => s = u ∧ t = u where
  read p n _ hle := by
    rintro s t ⟨rfl, rfl⟩
    rw [readSpan_stepwise_of_le c hle, h.read hle, itemsEach_outcome h.get hle]
    exact ⟨rfl, rfl, rfl⟩
  write p xs hxs hle := by
    rintro s t ⟨rfl, rfl⟩
    rw [write_stepwise_of_le c hle, h.write hxs hle, h.writeEach hxs hle]
    exact ⟨rfl, rfl, rfl⟩

theorem Fixed.orNull_stepwise (h : c.Fixed u f) (null : α) :
    (c.orNull null).stepwise.Fixed u fun p => some (f p) := by
  have hget : ∀ {p}, p < c.size → ((c.orNull null).get p).outcome u = (.ok (some (f p)), u) := by
    intro p hp
    show (some <$> c.get p).outcome u = _
    rw [Act.outcome_map, h.get hp]
    rfl
  refine ⟨hget, fun {p n} hle => ?_, fun x hp => h.set (x.getD null) hp, fun {p xs} hxs hle => ?_⟩
  · rw [readSpan_stepwise_of_le (c.orNull null) hle]
    exact itemsEach_outcome hget hle
  · rw [write_stepwise_of_le (c.orNull null) hle]
    cases xs with
    | nil => exact absurd rfl hxs
    | cons x xs =>
      have hp : p < c.size := Nat.lt_of_lt_of_le (by simp) hle
      have hset : ((c.orNull null).set p x).outcome u = (.error .readOnly, u) :=
        h.set (x.getD null) hp
      rw [Channel.writeEach, Act.outcome_bind, hset]
      rfl

end Channel

/-- A mapping that may only be read stays as it is. -/
theorem Mapping.fixed {m : Mapping} (hm : m.writable = false) (k : Kind) (size : Nat) (files : Files) :
    (m.channel k size).Fixed files (item k (files.contents m.file)) := by
  have hchange : ∀ f, (m.change f).outcome files = (.error .readOnly, files) := fun f => by
    rw [Act.outcome, run_change, hm]
    rfl
  refine ⟨fun hp => congrFun (Channel.outcome_checked hp _) files, fun {p n} hle => ?_,
    fun x hp => (congrFun (Channel.outcome_checked hp _) files).trans (hchange _),
    fun _ hle => (congrFun (Channel.outcome_writeWithin hle _) files).trans (hchange _)⟩
  rw [Channel.outcome_readSpan_look rfl hle files, items_eq]

/-! ## Slots -/

namespace Files.Same

variable {files files' files'' : Files}

theorem symm (h : files.Same files') : files'.Same files := fun name => (h name).symm

theorem trans (h : files.Same files') (h' : files'.Same files'') : files.Same files'' :=
  fun name => (h name).trans (h' name)

theorem grown (h : files.Same files') : files.Grown files' :=
  fun name bytes hbytes => ⟨bytes, (h name).symm.trans hbytes, Nat.le_refl _⟩

end Files.Same

namespace Store

variable {null : k.Elem} {gapless : Bool}

/-- The same stores are sound alike. -/
theorem Sound.same (h : s.Sound k slot shape null gapless) (hsame : s.Same t) :
    t.Sound k slot shape null gapless := by
  obtain ⟨leaf, hleaf, hsound, hrest⟩ := h
  exact ⟨leaf, leaf?_eq_some.2 (hsame.1 ▸ leaf?_eq_some.1 hleaf), hsound.grown hsame.2.grown, hrest⟩

/-- With sound storage in a slot, to be the same is a likeness. -/
theorem likeness_alike (k : Kind) (slot : Nat) (shape : List Nat) (null : k.Elem) (gapless : Bool) :
    Likeness (Alike k slot shape null gapless) where
  symm h := ⟨⟨h.1.1.symm, h.1.2.symm⟩, h.2.same h.1⟩
  trans h h' := ⟨⟨h.1.1.trans h'.1.1, h.1.2.trans h'.1.2⟩, h.2⟩

section
variable {a : Access σ k.Elem} {u : σ} {back : σ → Store} {β : Type}

theorem Backs.bounded_channel (h : s.Backs slot shape a u back)
    (pick : {σ : Type} → Access σ k.Elem → Channel σ β) (hsize : (pick a).size = sizeOf shape)
    (hbounded : (pick a).Bounded u) : (channel slot shape pick).Bounded s where
  get {p} hp := by
    refine (h.outcome fun a => (pick a).get p).trans ?_
    rw [hbounded.get (hsize ▸ hp), h.now, hsize]
    rfl
  set {p} x hp := by
    refine (h.outcome fun a => (pick a).set p x).trans ?_
    rw [hbounded.set x (hsize ▸ hp), h.now, hsize]
    rfl

/-- A slot is ready if the storage behind it is. -/
theorem Backs.ready (h : s.Backs slot shape a u back) (hsize : a.nullable.size = sizeOf shape)
    (hready : a.Ready u) : (access k slot shape).Ready s where
  get {p} hp := by
    have hp' : p < a.raw.size := Nat.lt_of_lt_of_eq hp h.size.symm
    obtain ⟨x, hget⟩ := hready.get hp'
    refine ⟨x, (h.outcome fun a => a.raw.get p).trans ?_⟩
    rw [hget, h.now]
  bounded := ⟨h.bounded_channel Access.raw h.size hready.bounded.raw,
    h.bounded_channel Access.nullable hsize hready.bounded.nullable⟩

theorem Backs.fixed (h : s.Backs slot shape a u back) {f : Nat → β}
    (pick : {σ : Type} → Access σ k.Elem → Channel σ β) (hsize : (pick a).size = sizeOf shape)
    (hfixed : (pick a).Fixed u f) : (channel slot shape pick).Fixed s f where
  get {p} hp := by
    refine (h.outcome fun a => (pick a).get p).trans ?_
    rw [hfixed.get (hsize ▸ hp), h.now]
  read {p n} hle := by
    rw [h.outcome_readSpan pick, hfixed.read (hsize ▸ hle), h.now]
  set {p} x hp := by
    refine (h.outcome fun a => (pick a).set p x).trans ?_
    rw [hfixed.set x (hsize ▸ hp), h.now]
  write {p xs} hxs hle := by
    refine (h.outcome fun a => (pick a).write p xs).trans ?_
    rw [hfixed.write hxs (hsize ▸ hle), h.now]

end

/-- A slot with sound storage is ready. -/
theorem Sound.ready (h : s.Sound k slot shape null gapless) : (access k slot shape).Ready s := by
  obtain ⟨leaf, hleaf, hsound, -, -⟩ := h
  cases leaf with
  | dense =>
    have hraw := Dense.plain (α := k.Elem) (sizeOf shape)
    exact (backs_dense hleaf).ready rfl (Access.ready_of_plain hraw (hraw.orNull k.null) hsound)
  | sparse content =>
    have hraw : (Sparse.access shape).raw.Plain (fun s => s.null = content.null) _ _ := Sparse.plain_raw
    have hnullable : (Sparse.access shape).nullable.Plain (fun s => s.null = content.null) _ _ :=
      Sparse.plain_nullable
    exact (backs_sparse hleaf).ready rfl (Access.ready_of_plain hraw hnullable rfl)
  | ragged =>
    exact (backs_ragged hleaf).ready rfl (Access.ready_of_plain (Nested.plain_raw shape k.null)
      (Nested.plain_nullable shape k.null) trivial)
  | bits =>
    have hraw := Bits.plain (sizeOf shape)
    exact (backs_bits hleaf).ready rfl
      (Access.ready_of_plain hraw (hraw.orNull false).stepwise hsound)
  | mapped m => exact (Mapping.backs hleaf).ready rfl (m.ready k shape s.files)
  | probe => exact hsound.elim

/-- A slot with storage that takes no writes is ready, and stays as it is. -/
theorem ready_of_readOnly (shape : List Nat) (h : s.Has k slot fun leaf _ => leaf.writable = false) :
    (access k slot shape).Ready s ∧
      (access k slot shape).Uniform (fun t t' => t = s ∧ t' = s) (sizeOf shape) := by
  obtain ⟨leaf, hleaf, hreadOnly⟩ := h
  cases leaf with
  | mapped m =>
    have hbacks : s.Backs slot shape (m.access k shape) s.files _ := Mapping.backs hleaf
    have hfixed := Mapping.fixed hreadOnly k (sizeOf shape) s.files
    have hraw := hbacks.fixed Access.raw rfl hfixed
    have hnullable := hbacks.fixed Access.nullable rfl (hfixed.orNull_stepwise k.null)
    exact ⟨hbacks.ready rfl (m.ready k shape s.files), rfl, rfl, hraw.uniform, hnullable.uniform⟩
  | dense | sparse | ragged | bits | probe => cases hreadOnly

/-! ## Cubes that are offered -/

variable {c : Cube k} {writable : Bool}

/-- The leaf under a cube that is offered is ready in every state that some likeness does not leave out,
and up to the likeness its bulk transfers come to single accesses. The likeness takes the store at hand
as it is, and only takes stores for one another that are the same. -/
theorem Offers.likeness (h : s.Offers c writable) (hbottom : c.bottom = (k₀, slot, dims)) :
    ∃ R : Store → Store → Prop, Likeness R ∧ R s s ∧ (∀ {t t'}, R t t' → t.Same t') ∧
      (access k₀ slot (shapeOf dims)).Uniform R (sizeOf (shapeOf dims)) ∧
      ∀ {t t'}, R t t' → (access k₀ slot (shapeOf dims)).Ready t := by
  cases h with
  | @made k₁ w w' slot' dims' source hmake hreach hlayered =>
    obtain ⟨_, _, hleaf, hsound⟩ := source.sound_make hmake
    cases hleaf
    obtain ⟨rfl, rfl, rfl⟩ : _ ∧ _ ∧ _ := by
      simpa using hlayered.fits_and_bottom.2.symm.trans hbottom
    have hlikeness := likeness_alike k₁ slot' (shapeOf dims') source.missing source.gapless
    have hlike := (agrees_access k₁ slot' (shapeOf dims') source.missing source.gapless).moves_stepwise
      hlikeness (orderly_access ..)
    exact ⟨_, hlikeness, ⟨⟨rfl, fun _ => rfl⟩, hreach.sound hsound⟩, fun h => h.1,
      hlike.uniform rfl rfl, fun h => h.2.ready⟩
  | @readOnly k₁ w w' slot' dims' name shape hmake hreach hlayered =>
    obtain ⟨rfl, rfl, rfl⟩ : _ ∧ _ ∧ _ := by
      simpa using hlayered.fits_and_bottom.2.symm.trans hbottom
    have hhas := hreach.has (Leaf.lasting_writable false) (has_readOnly hmake)
    obtain ⟨hready, huniform⟩ := ready_of_readOnly (shapeOf dims') hhas
    refine ⟨_, ⟨fun h => ⟨h.2, h.1⟩, fun h h' => ⟨h.1, h'.2⟩⟩, ⟨rfl, rfl⟩, ?_, huniform, ?_⟩
    · rintro t t' ⟨rfl, rfl⟩
      exact ⟨rfl, fun _ => rfl⟩
    · rintro t t' ⟨rfl, rfl⟩
      exact hready

/-- A cube that is offered is a stack of views that fit over some leaf. -/
theorem Offers.fits_and_bottom (h : s.Offers c writable) :
    c.Fits ∧ ∃ (k₀ : Kind) (slot : Nat) (dims : List Dimension), c.bottom = (k₀, slot, dims) := by
  cases h with
  | made _ _ _ hlayered => exact ⟨hlayered.fits_and_bottom.1, _, _, _, hlayered.fits_and_bottom.2⟩
  | readOnly _ _ hlayered => exact ⟨hlayered.fits_and_bottom.1, _, _, _, hlayered.fits_and_bottom.2⟩

/-- A cube that is offered is ready. -/
theorem Offers.ready (h : s.Offers c writable) : c.elements.Ready s := by
  obtain ⟨hfits, k₀, slot, dims, hbottom⟩ := h.fits_and_bottom
  obtain ⟨R, -, hs, -, -, hready⟩ := h.likeness hbottom
  exact hfits.ready hbottom (hready hs)

/-- A cube that is offered gives an element at every position, alone or among others. -/
theorem Offers.shows (h : s.Offers c writable) : ∃ f, c.elements.raw.Shows s f := by
  obtain ⟨hfits, k₀, slot, dims, hbottom⟩ := h.fits_and_bottom
  obtain ⟨R, -, hs, -, huniform, -⟩ := h.likeness hbottom
  have hgets : ∀ p, ∃ x : k.Elem, p < c.elements.raw.size →
      (c.elements.raw.get p).outcome s = (.ok x, s) := by
    intro p
    rcases Nat.lt_or_ge p c.elements.raw.size with hp | hp
    · obtain ⟨x, hget⟩ := h.ready.get hp
      exact ⟨x, fun _ => hget⟩
    · exact ⟨k.null, fun hlt => absurd hlt (Nat.not_lt.2 hp)⟩
  choose f hf using hgets
  have hget : ∀ {p}, p < c.elements.raw.size → (c.elements.raw.get p).outcome s = (.ok (f p), s) :=
    fun hp => hf _ hp
  refine ⟨f, hget, fun {p n} hle => ?_⟩
  have hcube : (c.access access).Uniform R c.size := hfits.uniform hbottom huniform
  rcases Nat.eq_zero_or_pos n with rfl | hn
  · obtain ⟨J, hJ, -, hreads⟩ := h.reads
    rcases hreads s hJ p 0 hle s rfl with ⟨xs, t, hrun, hlen, -⟩ | ⟨hfalse, -⟩
    · obtain rfl := List.eq_nil_of_length_eq_zero hlen
      exact congrArg Prod.fst hrun
    · exact hfalse.elim
  · have hread : ((c.elements.raw.readSpan ⟨p, n⟩).outcome s).1 = _ :=
      (hcube.raw.readSpan hn hle s s hs).1
    rw [hread]
    exact congrArg Prod.fst (Channel.itemsEach_outcome hget hle)

end Store

end Orthotope
