import Orthotope.Proofs.Channel.AllOrNothing
import Orthotope.Proofs.Store.Missing

/-!
# Failing writes to the storage of a slot

Whatever storage is in a slot, its writes heed the checks of their positions and its bulk reads in range
are complete (`Store.Heedful`). Sound storage never fails after its checks and stays sound
(`Store.Sound.heedful`). Storage that takes no writes is a mapping. It fails after its checks, and no
request changes the store (`Store.heedful_of_readOnly`).

What the storage does in its own state, the slot does in the store (`Store.access_writesInRange`,
`Store.access_readsInRange`).
-/

namespace Orthotope

variable {k : Kind} {fails : Prop}

namespace Mapping

variable {I : Files → Prop}

theorem readsInRange (m : Mapping) (k : Kind) (size : Nat) : (m.channel k size).ReadsInRange I := by
  rintro _ hs p n hle files rfl
  exact .inl ⟨_, files, Channel.outcome_readSpan_look rfl hle files, by simp [items_eq], rfl⟩

/-- A mapping heeds the checks of its positions. If it may only be read, it fails after them. -/
theorem writesInRange (m : Mapping) (k : Kind) (size : Nat)
    (hwritable : m.writable = true → ∀ files p (xs : List k.Elem), I files → I (m.edit k files p xs))
    (hreadOnly : m.writable = false → fails) : (m.channel k size).WritesInRange I fails := by
  have hchange : ∀ p (xs : List k.Elem),
      (m.change fun bytes => overwrite k bytes p xs).Meets I fails fun _ => True := by
    intro p xs files hs
    unfold Act.outcome
    rw [run_change]
    split
    · next hm => exact .inl ⟨(), m.edit k files p xs, rfl, trivial, hwritable hm files p xs hs⟩
    · next hm => exact .inr ⟨hreadOnly (Bool.eq_false_iff.2 hm), .readOnly, files, rfl, hs⟩
  exact ⟨fun p x => .checked fun _ => hchange p [x], fun p xs => .checked fun _ => hchange p xs⟩

end Mapping

namespace Store

variable {s : Store} {slot : Nat} {shape : List Nat} {I : Store → Prop}

/-- The slot has storage whose writes heed the checks of their positions and whose bulk reads in range
are complete. Whatever they make of the storage, the store is one of `I`. -/
def Heedful (s : Store) (k : Kind) (slot : Nat) (shape : List Nat) (I : Store → Prop) (fails : Prop) :
    Prop :=
  ∃ (σ : Type) (a : Access σ k.Elem) (J : σ → Prop) (u : σ) (back : σ → Store),
    s.Backs slot shape a u back ∧ a.nullable.size = sizeOf shape ∧ J u ∧ (∀ u, J u → I (back u)) ∧
      a.raw.ReadsInRange J ∧ a.WritesInRange J fails

/-- What heeds a check in the storage does so in the slot. -/
theorem heeds_of_heedful (h : ∀ s, I s → s.Heedful k slot shape I fails) {check : Except Error Unit}
    (ask : {σ : Type} → Access σ k.Elem → Act σ Unit)
    (hask : ∀ {σ : Type} {a : Access σ k.Elem} {J : σ → Prop}, a.raw.size = sizeOf shape →
      a.nullable.size = sizeOf shape → a.WritesInRange J fails → (ask a).Heeds J fails check) :
    Act.Heeds (σ := Store) I fails check
      (ExceptT.mk (perform slot shape missing fun a => (ask a).run)) where
  refuses {s e} hs hcheck := by
    obtain ⟨σ, a, J, u, back, hback, hsize, hu, -, -, hwrites⟩ := h s hs
    rw [hback.outcome ask, (hask hback.size hsize hwrites).refuses hu hcheck, hback.now]
  meets hcheck s hs := by
    obtain ⟨σ, a, J, u, back, hback, hsize, hu, hI, -, hwrites⟩ := h s hs
    rw [hback.outcome ask]
    rcases (hask hback.size hsize hwrites).meets hcheck u hu with
      ⟨x, u', hrun, -, hu'⟩ | ⟨hfails, e, u', hrun, hu'⟩
    · rw [hrun]
      exact .inl ⟨x, back u', rfl, trivial, hI u' hu'⟩
    · rw [hrun]
      exact .inr ⟨hfails, e, back u', rfl, hI u' hu'⟩

/-- Writes to a slot heed the checks of their positions if those to the storage there do. -/
theorem access_writesInRange (h : ∀ s, I s → s.Heedful k slot shape I fails) :
    (access k slot shape).WritesInRange I fails := by
  have hchannel : ∀ {β : Type} (pick : {σ : Type} → Access σ k.Elem → Channel σ β),
      (∀ {σ : Type} {a : Access σ k.Elem} {J : σ → Prop}, a.raw.size = sizeOf shape →
        a.nullable.size = sizeOf shape → a.WritesInRange J fails →
        (pick a).size = sizeOf shape ∧ (pick a).WritesInRange J fails) →
      (channel slot shape pick).WritesInRange I fails := by
    intro β pick hpick
    refine ⟨fun p x => ?set, fun p xs => ?write⟩
    case set =>
      refine heeds_of_heedful h (fun a => (pick a).set p x) fun hraw hnullable hwrites => ?_
      obtain ⟨hsize, hpicked⟩ := hpick hraw hnullable hwrites
      have hset := hpicked.set p x
      rwa [hsize] at hset
    case write =>
      refine heeds_of_heedful h (fun a => (pick a).write p xs) fun hraw hnullable hwrites => ?_
      obtain ⟨hsize, hpicked⟩ := hpick hraw hnullable hwrites
      have hwrite := hpicked.write p xs
      rwa [hsize] at hwrite
  exact ⟨hchannel Access.raw fun hraw _ hwrites => ⟨hraw, hwrites.raw⟩,
    hchannel Access.nullable fun _ hnullable hwrites => ⟨hnullable, hwrites.nullable⟩⟩

/-- Bulk reads of a slot that are in range are complete if those of the storage there are. -/
theorem access_readsInRange {J : Store → Prop}
    (h : ∀ s, J s → ∃ I fails, s.Heedful k slot shape I fails) :
    (access k slot shape).raw.ReadsInRange J := by
  rintro _ hs p n hle s rfl
  obtain ⟨I, fails, σ, a, J, u, back, hback, -, hu, -, hreads, -⟩ := h s hs
  rw [show (access k slot shape).raw = channel slot shape Access.raw from rfl,
    hback.outcome_readSpan Access.raw]
  rcases hreads u hu p n (hback.size ▸ hle) u rfl with ⟨xs, u', hrun, hlen, rfl⟩ | ⟨hfalse, -⟩
  · rw [hrun, hback.now]
    exact .inl ⟨xs, s, rfl, hlen, rfl⟩
  · exact hfalse.elim

/-- Sound storage heeds the checks of its positions and stays sound. -/
theorem Sound.heedful {null : k.Elem} {gapless : Bool} (h : s.Sound k slot shape null gapless) :
    s.Heedful k slot shape (Sound · k slot shape null gapless) fails := by
  obtain ⟨leaf, hleaf, hsound, rfl, rfl⟩ := h
  cases leaf with
  | dense content =>
    have hraw := Dense.plain (α := k.Elem) (sizeOf shape)
    exact ⟨_, Dense.access shape k.null, (Dense.Covers · (sizeOf shape)), content,
      fun content => s.restore slot (Leaf.dense content, s.files),
      backs_dense hleaf, rfl, hsound,
      fun _ hcovers => ⟨_, leaf?_restore hleaf, hcovers, rfl, rfl⟩, hraw.readsInRange,
      hraw.writesInRange, hraw.writesInRange.orNull _⟩
  | sparse content =>
    exact ⟨_, Sparse.access shape, fun next => next.null = content.null, content,
      fun content => s.restore slot (Leaf.sparse content, s.files),
      backs_sparse hleaf, rfl, rfl,
      fun _ hnull => ⟨_, leaf?_restore hleaf, trivial, hnull, rfl⟩, Sparse.plain_raw.readsInRange,
      Sparse.plain_raw.writesInRange, Sparse.plain_nullable.writesInRange⟩
  | ragged content =>
    have hraw := Nested.plain_raw shape k.null
    exact ⟨_, Nested.access shape k.null, fun _ => True, content,
      fun content => s.restore slot (Leaf.ragged content, s.files),
      backs_ragged hleaf, rfl, trivial,
      fun _ _ => ⟨_, leaf?_restore hleaf, trivial, rfl, rfl⟩, hraw.readsInRange,
      hraw.writesInRange, (Nested.plain_nullable shape k.null).writesInRange⟩
  | bits content =>
    have hraw := Bits.plain (sizeOf shape)
    exact ⟨_, Bits.access shape, Bits.Sized (sizeOf shape), content,
      fun content => s.restore slot (Leaf.bits content, s.files),
      backs_bits hleaf, rfl, hsound,
      fun _ hsized => ⟨_, leaf?_restore hleaf, hsized, rfl, rfl⟩, hraw.readsInRange,
      hraw.writesInRange, (hraw.writesInRange.orNull false).stepwise⟩
  | mapped m =>
    obtain ⟨hwritable, hbacked⟩ := hsound
    have hraw : (m.channel k (sizeOf shape)).WritesInRange (m.Backed k (sizeOf shape)) fails :=
      m.writesInRange k _ (fun _ _ p xs hs => hs.edit p xs)
        fun hreadOnly => absurd hwritable (Bool.eq_false_iff.1 hreadOnly)
    exact ⟨_, m.access k shape, m.Backed k (sizeOf shape), s.files,
      fun files => s.restore slot (Leaf.mapped m, files),
      backs_mapped hleaf, rfl, hbacked,
      fun _ hbacked => ⟨_, leaf?_restore hleaf, ⟨hwritable, hbacked⟩, rfl, rfl⟩,
      m.readsInRange k _, hraw, (hraw.orNull k.null).stepwise⟩
  | probe => exact hsound.elim

/-- Storage that takes no writes heeds the checks of its positions, and the store never changes. -/
theorem heedful_of_readOnly (h : s.Has k slot fun leaf _ => leaf.writable = false) (hfails : fails) :
    s.Heedful k slot shape (· = s) fails := by
  obtain ⟨leaf, hleaf, hreadOnly⟩ := h
  cases leaf with
  | mapped m =>
    have hraw : (m.channel k (sizeOf shape)).WritesInRange (· = s.files) fails :=
      m.writesInRange k _ (fun hwritable => absurd hwritable (Bool.eq_false_iff.1 hreadOnly))
        fun _ => hfails
    exact ⟨_, m.access k shape, (· = s.files), s.files,
      fun files => s.restore slot (Leaf.mapped m, files),
      backs_mapped hleaf, rfl, rfl,
      fun _ hfiles => hfiles ▸ restore_self hleaf, m.readsInRange k _, hraw,
      (hraw.orNull k.null).stepwise⟩
  | dense | sparse | ragged | bits | probe => cases hreadOnly

end Store

end Orthotope
