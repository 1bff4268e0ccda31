import Orthotope.Proofs.Storage.Gapless
import Orthotope.Proofs.Storage.Ragged
import Orthotope.Proofs.Storage.Sparse
import Orthotope.Proofs.Store.Faithful

/-!
# Missing elements in the store

A missing element of a leaf has a value: the null value of the storage if that is sparse, null
otherwise (`Leaf.missing`). If the storage in a slot is sound (`Store.Sound`), the two channels of the
slot agree on that value (`Store.agrees_access`), whichever storage it is. Stores are compared by their
leaves and by the bytes of their files (`Store.Same`).

What storage may become while requests are answered is `Leaf.Follows`. A property of storage that this
cannot change is `Leaf.Lasting`: it outlasts all requests, to the slot itself or to others
(`Store.keeps_access`). To be sound, with a certain value of a missing element, is such a property
(`Leaf.lasting_sound`).
-/

namespace Orthotope

/-! ## Leaves -/

namespace Leaf

/-- The value that a missing element reads as on the raw channel. -/
def missing : {k : Kind} → Leaf k → k.Elem
  | _, .sparse content => content.null
  | k, _ => k.null

/-- Whether storage has an element at every position. -/
def gapless : {k : Kind} → Leaf k → Bool
  | _, .dense _ => true
  | _, .bits _ => true
  | _, .mapped _ => true
  | _, _ => false

/-- Whether storage takes writes. A mapping may be one that does not. -/
def writable : {k : Kind} → Leaf k → Bool
  | _, .mapped m => m.writable
  | _, _ => true

/-- Storage that can be the leaf of the given shape: every position has its place, and the file of a
mapping may be written. Probes, which refuse requests as they like, are left out. -/
def Sound (shape : List Nat) : {k : Kind} → Leaf k → Files → Prop
  | _, .dense content, _ => content.Covers (sizeOf shape)
  | _, .sparse _, _ => True
  | _, .ragged _, _ => True
  | _, .bits content, _ => Bits.Sized (sizeOf shape) content
  | k, .mapped m, files => m.writable = true ∧ m.Backed k (sizeOf shape) files
  | _, .probe _, _ => False

/-- What storage and files may become while requests are answered. -/
structure Follows {k : Kind} (leaf : Leaf k) (files : Files) (next : Leaf k × Files) : Prop where
  sound : ∀ shape, leaf.Sound shape files → next.1.Sound shape next.2
  missing : next.1.missing = leaf.missing
  gapless : next.1.gapless = leaf.gapless
  writable : next.1.writable = leaf.writable
  grown : files.Grown next.2

/-- A property of storage that outlasts requests, and changes of files by which none is gone or
shorter. -/
structure Lasting {k : Kind} (P : Leaf k → Files → Prop) : Prop where
  follows : ∀ {leaf files next}, P leaf files → leaf.Follows files next → P next.1 next.2
  grown : ∀ {leaf files files'}, P leaf files → files.Grown files' → P leaf files'

variable {k : Kind} {shape : List Nat} {leaf : Leaf k} {files files' : Files}

/-- Storage stays sound while no file is gone or shorter. -/
theorem Sound.grown (h : leaf.Sound shape files) (hgrown : files.Grown files') :
    leaf.Sound shape files' := by
  cases leaf with
  | mapped m => exact ⟨h.1, h.2.grown hgrown⟩
  | dense | sparse | ragged | bits | probe => exact h

/-- Sound storage stays so, and a missing element of it keeps its value. -/
theorem lasting_sound (shape : List Nat) (null : k.Elem) (gapless : Bool) :
    Lasting fun (leaf : Leaf k) files =>
      leaf.Sound shape files ∧ leaf.missing = null ∧ leaf.gapless = gapless where
  follows := by
    rintro leaf files next ⟨hsound, hmissing, hgapless⟩ h
    exact ⟨h.sound shape hsound, h.missing.trans hmissing, h.gapless.trans hgapless⟩
  grown h hgrown := ⟨h.1.grown hgrown, h.2⟩

/-- What takes no writes never will. -/
theorem lasting_writable (writable : Bool) :
    Lasting fun (leaf : Leaf k) _ => leaf.writable = writable where
  follows hwritable h := h.writable.trans hwritable
  grown hwritable _ := hwritable

/-- What keeps all that an access keeps lets storage become what it may become. -/
theorem follows_perform {α : Type} (leaf : Leaf k) (shape : List Nat) (files : Files)
    (ask : {σ : Type} → Access σ k.Elem → Effect σ α)
    (hask : ∀ {σ : Type} {a : Access σ k.Elem} {I : σ → Prop}, a.Keeps I →
      ∀ {u}, I u → I ((ask a).run u).state) :
    leaf.Follows files (leaf.perform shape ask files).state := by
  cases leaf with
  | dense content =>
    exact ⟨fun shape' h => hask (Dense.keeps shape k.null (sizeOf shape')) h, rfl, rfl, rfl,
      .refl files⟩
  | sparse content =>
    exact ⟨fun _ _ => trivial, hask (Sparse.keeps shape content.null) rfl, rfl, rfl, .refl files⟩
  | ragged => exact ⟨fun _ _ => trivial, rfl, rfl, rfl, .refl files⟩
  | bits content =>
    exact ⟨fun shape' h => hask (Bits.keeps shape (sizeOf shape')) h, rfl, rfl, rfl, .refl files⟩
  | mapped m =>
    have hgrown := hask (m.keeps k shape files) (.refl files)
    exact ⟨fun _ h => ⟨h.1, h.2.grown hgrown⟩, rfl, rfl, rfl, hgrown⟩
  | probe => exact ⟨fun _ h => h, rfl, rfl, rfl, .refl files⟩

end Leaf

namespace Store

variable {k : Kind} {s t : Store} {slot : Nat} {shape : List Nat} {null : k.Elem} {gapless : Bool}

/-- The same leaves, and files with the same bytes. -/
def Same (s t : Store) : Prop := s.leaves = t.leaves ∧ s.files.Same t.files

/-- The slot has storage with a property. -/
def Has (s : Store) (k : Kind) (slot : Nat) (P : Leaf k → Files → Prop) : Prop :=
  ∃ leaf : Leaf k, s.leaf? k slot = some leaf ∧ P leaf s.files

/-- The slot has storage for a leaf of the given shape. `null` is the value of a missing element, and
`gapless` says whether no element is missing. -/
def Sound (s : Store) (k : Kind) (slot : Nat) (shape : List Nat) (null : k.Elem) (gapless : Bool) :
    Prop :=
  ∃ leaf : Leaf k, s.leaf? k slot = some leaf ∧ leaf.Sound shape s.files ∧
    leaf.missing = null ∧ leaf.gapless = gapless

/-- The same stores, with sound storage in a slot. -/
def Alike (k : Kind) (slot : Nat) (shape : List Nat) (null : k.Elem) (gapless : Bool) (s t : Store) :
    Prop := s.Same t ∧ s.Sound k slot shape null gapless

/-! ## What requests keep -/

/-- Nothing is done in a slot without storage. -/
theorem perform_absent {α : Type} (h : s.leaf? k slot = none) (absent : α)
    (ask : {σ : Type} → Access σ k.Elem → Effect σ α) :
    perform slot shape absent ask s = ⟨absent, [], s⟩ := by
  unfold perform
  rw [h]

theorem leaf?_restore_of_ne {k' : Kind} {slot' : Nat} (h : slot' ≠ slot) (done : Leaf k' × Files) :
    (s.restore slot' done).leaf? k slot = s.leaf? k slot := by
  have hslot : (s.restore slot' done).leaves.getD slot none = s.leaves.getD slot none := by
    show (s.leaves.setIfInBounds slot' (some ⟨k', done.1⟩)).getD slot none = _
    rw [Array.getD_eq_getD_getElem?, Array.getElem?_setIfInBounds_ne h, Array.getD_eq_getD_getElem?]
  unfold leaf?
  rw [hslot]

section
variable {P : Leaf k → Files → Prop}

/-- A lasting property stays if what is in some slot becomes what it may become. -/
theorem Has.restore (h : s.Has k slot P) (hP : Leaf.Lasting P) {k' : Kind} {slot' : Nat}
    {leaf' : Leaf k'} {next : Leaf k' × Files} (hleaf' : s.leaf? k' slot' = some leaf')
    (hfollows : leaf'.Follows s.files next) : (s.restore slot' next).Has k slot P := by
  obtain ⟨leaf, hleaf, hleafP⟩ := h
  rcases Decidable.em (slot' = slot) with rfl | hne
  · have hboth := (leaf?_eq_some.1 hleaf).symm.trans (leaf?_eq_some.1 hleaf')
    cases hboth
    exact ⟨next.1, leaf?_restore hleaf, hP.follows hleafP hfollows⟩
  · exact ⟨leaf, (leaf?_restore_of_ne hne next).trans hleaf, hP.grown hleafP hfollows.grown⟩

/-- A lasting property stays while something is done in some slot that keeps all that an access
keeps. -/
theorem Has.perform (h : s.Has k slot P) (hP : Leaf.Lasting P) {k' : Kind} {α : Type} (slot' : Nat)
    (shape' : List Nat) (absent : α) (ask : {σ : Type} → Access σ k'.Elem → Effect σ α)
    (hask : ∀ {σ : Type} {a : Access σ k'.Elem} {I : σ → Prop}, a.Keeps I →
      ∀ {u}, I u → I ((ask a).run u).state) :
    ((perform slot' shape' absent ask).run s).state.Has k slot P := by
  cases hleaf' : s.leaf? k' slot' with
  | none =>
    rw [Effect.run, perform_absent hleaf']
    exact h
  | some leaf' =>
    rw [Effect.run, perform_eq hleaf']
    exact h.restore hP hleaf' (leaf'.follows_perform shape' s.files ask hask)

/-- A request to any slot leaves a lasting property of the storage in a slot. -/
theorem keeps_access (hP : Leaf.Lasting P) (k' : Kind) (slot' : Nat) (shape' : List Nat) :
    (access k' slot' shape').Keeps (Has · k slot P) := by
  have hchannel : ∀ {β : Type} (pick : {σ : Type} → Access σ k'.Elem → Channel σ β),
      (∀ {σ : Type} {a : Access σ k'.Elem} {I : σ → Prop}, a.Keeps I → (pick a).Keeps I) →
      (channel slot' shape' pick).Keeps (Has · k slot P) := by
    intro β pick hpick
    refine Channel.keeps_of_calls (fun p s hs => ?get) (fun p x s hs => ?set) (fun p n s hs => ?read)
      fun p xs s hs => ?write
    case get => exact hs.perform hP slot' shape' _ _ fun ha _ hu => (hpick ha).get hu p
    case set => exact hs.perform hP slot' shape' _ _ fun ha _ hu => (hpick ha).set hu p x
    case read => exact hs.perform hP slot' shape' _ _ fun ha _ hu => (hpick ha).read hu p n
    case write => exact hs.perform hP slot' shape' _ _ fun ha _ hu => (hpick ha).write hu p xs
  exact ⟨hchannel Access.raw fun ha => ha.raw, hchannel Access.nullable fun ha => ha.nullable⟩

end

/-! ## The channels of a slot -/

section
variable {σ : Type} {a : Access σ k.Elem} {leaf : Leaf k} {lodge lodge' : σ → Leaf k × Files}

/-- `lodge` makes leaves and files of the states of some storage: what is done to such a leaf is done to
the storage. -/
def Lodges (shape : List Nat) (a : Access σ k.Elem) (lodge : σ → Leaf k × Files) : Prop :=
  a.raw.size = sizeOf shape ∧
    ∀ {α : Type} (ask : {σ : Type} → Access σ k.Elem → Effect σ α) (u : σ),
      (lodge u).1.perform shape ask (lodge u).2 =
        ⟨(ask a u).value, (ask a u).events, lodge (ask a u).state⟩

/-- Storage that lodges in a leaf is behind its slot, whatever state it comes to. -/
theorem Lodges.backs (h : Lodges shape a lodge) (hleaf : s.leaf? k slot = some leaf) (u : σ) :
    (s.restore slot (lodge u)).Backs slot shape a u fun u => s.restore slot (lodge u) where
  now := rfl
  size := h.1
  perform absent ask := by
    have hthere : (s.restore slot (lodge u)).leaf? k slot = some (lodge u).1 := leaf?_restore hleaf
    have htwice : ∀ done : Leaf k × Files,
        (s.restore slot (lodge u)).restore slot done = s.restore slot done := by
      intro done
      unfold restore put
      dsimp only
      rw [Array.setIfInBounds_setIfInBounds]
    have hfiles : (s.restore slot (lodge u)).files = (lodge u).2 := rfl
    rw [perform_eq hthere, htwice, hfiles, h.2 ask u]

/-- Two stores that have the same storage in a slot, in states that `R` relates. Related states make
stores that `R'` relates. -/
def Lodged (R' : Store → Store → Prop) (slot : Nat) (shape : List Nat) (a : Access σ k.Elem)
    (R : σ → σ → Prop) (s t : Store) : Prop :=
  ∃ (back back' : σ → Store) (u v : σ), back u = s ∧ back' v = t ∧ R u v ∧
    (∀ u, (back u).Backs slot shape a u back) ∧ (∀ v, (back' v).Backs slot shape a v back') ∧
    ∀ {u v}, R u v → R' (back u) (back' v)

variable {R' : Store → Store → Prop} {R : σ → σ → Prop}

/-- What is alike for the storage is alike for the slot. -/
theorem Lodged.like {α β : Type} {f : α → β} (h : Lodged R' slot shape a R s t)
    (ask : {σ : Type} → Access σ k.Elem → Effect σ α) (ask' : {σ : Type} → Access σ k.Elem → Effect σ β)
    (hlike : Effect.Like R f (ask a) (ask' a)) (absent : α) (absent' : β) :
    f ((perform slot shape absent ask).run s).value = ((perform slot shape absent' ask').run t).value ∧
      R' ((perform slot shape absent ask).run s).state
        ((perform slot shape absent' ask').run t).state := by
  obtain ⟨back, back', u, v, rfl, rfl, huv, hback, hback', hstep⟩ := h
  obtain ⟨hvalue, hstate⟩ := hlike u v huv
  rw [Effect.run, Effect.run, (hback u).perform, (hback' v).perform]
  exact ⟨hvalue, hstep hstate⟩

/-- Storage that lodges in the leaf of both stores, in related states. -/
theorem Alike.lodged (h : Alike k slot shape null gapless s t) (hlodge : Lodges shape a lodge)
    (hlodge' : Lodges shape a lodge') {u v : σ} (hleaf : s.leaf? k slot = some leaf)
    (hu : lodge u = (leaf, s.files)) (hv : lodge' v = (leaf, t.files)) (huv : R u v)
    (hstep : ∀ {u v}, R u v → (lodge u).1 = (lodge' v).1 ∧ (lodge u).2.Same (lodge' v).2 ∧
      (lodge u).1.Sound shape (lodge u).2 ∧ (lodge u).1.missing = null ∧
      (lodge u).1.gapless = gapless) :
    Lodged (Alike k slot shape null gapless) slot shape a R s t := by
  obtain ⟨⟨hleaves, hfiles⟩, -⟩ := h
  have hleaf' : t.leaf? k slot = some leaf := leaf?_eq_some.2 (hleaves ▸ leaf?_eq_some.1 hleaf)
  refine ⟨fun u => s.restore slot (lodge u), fun v => t.restore slot (lodge' v), u, v, ?_, ?_, huv,
    hlodge.backs hleaf, hlodge'.backs hleaf', fun {u v} huv => ?_⟩
  · exact (congrArg (s.restore slot) hu).trans (restore_self hleaf)
  · exact (congrArg (t.restore slot) hv).trans (restore_self hleaf')
  · obtain ⟨hsame, hfiles, hsound⟩ := hstep huv
    refine ⟨⟨?_, hfiles⟩, (lodge u).1, leaf?_restore hleaf, hsound⟩
    show s.leaves.setIfInBounds slot _ = t.leaves.setIfInBounds slot _
    rw [hleaves, hsame]

/-- Storage that is kept in the leaf of both stores, in one state. -/
theorem Alike.lodged_content (h : Alike k slot shape null gapless s t) (wrap : σ → Leaf k)
    (hlodge : ∀ files, Lodges shape a fun u => (wrap u, files)) {u : σ}
    (hleaf : s.leaf? k slot = some (wrap u)) (hu : R u u)
    (hstep : ∀ {u v}, R u v → u = v ∧ (wrap u).Sound shape s.files ∧ (wrap u).missing = null ∧
      (wrap u).gapless = gapless) :
    Lodged (Alike k slot shape null gapless) slot shape a R s t := by
  refine h.lodged (hlodge s.files) (hlodge t.files) hleaf rfl rfl hu fun {u v} huv => ?_
  obtain ⟨rfl, hsound⟩ := hstep huv
  exact ⟨rfl, h.1.2, hsound⟩

/-- An act on the store does to the states of some storage what an act on the storage does. -/
def Mirrors {α : Type} (back : σ → Store) (act : Act Store α) (act' : Act σ α) : Prop :=
  ∀ u, act.outcome (back u) = ((act'.outcome u).1, back (act'.outcome u).2)

section
variable {back : σ → Store}

theorem Mirrors.bind {α β : Type} {act : Act Store α} {act' : Act σ α} {next : α → Act Store β}
    {next' : α → Act σ β} (h : Mirrors back act act') (hnext : ∀ x, Mirrors back (next x) (next' x)) :
    Mirrors back (act >>= next) (act' >>= next') := by
  intro u
  rw [Act.outcome_bind, Act.outcome_bind, h u]
  rcases act'.outcome u with ⟨e | x, u'⟩
  · rfl
  · exact hnext x u'

theorem Mirrors.ofExcept {α : Type} (x : Except Error α) :
    Mirrors back (Act.ofExcept x) (Act.ofExcept x) := fun _ => rfl

variable {β : Type} (pick : {σ : Type} → Access σ k.Elem → Channel σ β)

/-- The stepwise form of a channel of the slot does what that of the channel of the storage does. -/
theorem mirrors_stepwise (hback : ∀ u, (back u).Backs slot shape a u back)
    (hsize : (pick a).size = sizeOf shape) (p : Nat) :
    (∀ n, Mirrors back ((channel slot shape pick).stepwise.readSpan ⟨p, n⟩)
      ((pick a).stepwise.readSpan ⟨p, n⟩)) ∧
    ∀ xs, Mirrors back ((channel slot shape pick).stepwise.write p xs)
      ((pick a).stepwise.write p xs) := by
  have hget : ∀ p, Mirrors back ((channel slot shape pick).get p) ((pick a).get p) :=
    fun p u => (hback u).outcome fun a => (pick a).get p
  have hset : ∀ p x, Mirrors back ((channel slot shape pick).set p x) ((pick a).set p x) :=
    fun p x u => (hback u).outcome fun a => (pick a).set p x
  have hitems : ∀ n p, Mirrors back ((channel slot shape pick).itemsEach p n)
      ((pick a).itemsEach p n) := by
    intro n
    induction n with
    | zero => exact fun _ _ => rfl
    | succ n ih => exact fun p => (hget p).bind fun _ => (ih (p + 1)).bind fun _ _ => rfl
  have hwrite : ∀ xs p, Mirrors back ((channel slot shape pick).writeEach p xs)
      ((pick a).writeEach p xs) := by
    intro xs
    induction xs with
    | nil => exact fun _ _ => rfl
    | cons x xs ih => exact fun p => (hset p x).bind fun _ => ih (p + 1)
  have hsame : (channel slot shape pick).size = (pick a).size := hsize.symm
  refine ⟨fun n => ?_, fun xs => ?_⟩
  · rw [Channel.readSpan_stepwise, Channel.readSpan_stepwise, hsame]
    exact (Mirrors.ofExcept _).bind fun _ => hitems n p
  · show Mirrors back (writeWithin (channel slot shape pick).size p xs.length _)
      (writeWithin (pick a).size p xs.length _)
    rw [hsame]
    exact (Mirrors.ofExcept _).bind fun _ => hwrite xs p

end

end

/-- What is in a slot with sound storage, as storage whose channels agree. -/
theorem Alike.exists_lodged (h : Alike k slot shape null gapless s t) :
    ∃ (σ : Type) (a : Access σ k.Elem) (R : σ → σ → Prop),
      Lodged (Alike k slot shape null gapless) slot shape a R s t ∧ a.Agrees R null ∧ a.Orderly R ∧
      (gapless = true → a.Gapless R) := by
  obtain ⟨leaf, hleaf, hsound, rfl, rfl⟩ := h.2
  cases leaf with
  | dense content =>
    refine ⟨_, _, _, ?_, Dense.agrees shape k.null, Dense.orderly shape k.null,
      fun _ => Dense.gapless shape k.null⟩
    exact h.lodged_content .dense (fun _ => ⟨rfl, fun _ _ => rfl⟩) hleaf ⟨rfl, hsound⟩
      fun ⟨heq, hcovers⟩ => ⟨heq, hcovers, rfl, rfl⟩
  | sparse content =>
    refine ⟨_, _, _, ?_, Sparse.agrees shape content.null, Sparse.orderly shape content.null, nofun⟩
    exact h.lodged_content .sparse (fun _ => ⟨rfl, fun _ _ => rfl⟩) hleaf ⟨rfl, rfl⟩
      fun ⟨heq, hnull⟩ => ⟨heq, trivial, hnull, rfl⟩
  | ragged content =>
    refine ⟨_, _, _, ?_, Nested.agrees shape k.null, Nested.orderly shape k.null, nofun⟩
    exact h.lodged_content .ragged (fun _ => ⟨rfl, fun _ _ => rfl⟩) hleaf ⟨rfl, trivial⟩
      fun ⟨heq, _⟩ => ⟨heq, trivial, rfl, rfl⟩
  | bits content =>
    refine ⟨_, _, _, ?_, Bits.agrees shape, Bits.orderly shape, fun _ => Bits.gapless shape⟩
    exact h.lodged_content .bits (fun _ => ⟨rfl, fun _ _ => rfl⟩) hleaf ⟨rfl, hsound⟩
      fun ⟨heq, hsized⟩ => ⟨heq, hsized, rfl, rfl⟩
  | mapped m =>
    obtain ⟨hwritable, hbacked⟩ := hsound
    refine ⟨_, _, _, ?_, m.agrees hwritable shape, m.orderly hwritable shape,
      fun _ => m.gapless hwritable shape⟩
    have hlodge : Lodges shape (m.access k shape) fun files => (Leaf.mapped m, files) :=
      ⟨rfl, fun _ _ => rfl⟩
    exact h.lodged hlodge hlodge hleaf rfl rfl ⟨h.1.2, hbacked⟩
      fun ⟨hsame, hbacked⟩ => ⟨rfl, hsame, ⟨hwritable, hbacked⟩, rfl, rfl⟩
  | probe => exact hsound.elim

/-- The channels of a slot with sound storage agree. -/
theorem agrees_access (k : Kind) (slot : Nat) (shape : List Nat) (null : k.Elem) (gapless : Bool) :
    (access k slot shape).Agrees (Alike k slot shape null gapless) null where
  reads :=
    { size := rfl
      get := fun p s t hst => by
        obtain ⟨σ, a, R, hlodged, hagrees, -, -⟩ := hst.exists_lodged
        exact hlodged.like (fun a => (a.nullable.get p).run) (fun a => (a.raw.get p).run)
          (hagrees.reads.get p) _ _
      read := fun p n s t hst => by
        obtain ⟨σ, a, R, hlodged, hagrees, -, -⟩ := hst.exists_lodged
        exact hlodged.like (fun a => a.nullable.read p n) (fun a => a.raw.read p n)
          (hagrees.reads.read p n) _ _ }
  writes :=
    { size := rfl
      set := fun p x s t hst => by
        obtain ⟨σ, a, R, hlodged, hagrees, -, -⟩ := hst.exists_lodged
        exact hlodged.like (f := id) (fun a => (a.nullable.set p (some x)).run)
          (fun a => (a.raw.set p x).run) (hagrees.writes.set p x) _ _
      write := fun p xs s t hst => by
        obtain ⟨σ, a, R, hlodged, hagrees, -, -⟩ := hst.exists_lodged
        exact hlodged.like (f := id) (fun a => (a.nullable.write p (xs.map some)).run)
          (fun a => (a.raw.write p xs).run) (hagrees.writes.write p xs) _ _ }
  erase := by
    intro s s' t p hst hset
    obtain ⟨σ, a, R, ⟨back, -, u, v, rfl, -, huv, hback, -⟩, hagrees, -, -⟩ := hst.exists_lodged
    have hrun := (hback u).outcome fun a => a.nullable.set p none
    have hdone := hrun.symm.trans hset
    obtain rfl : back ((a.nullable.set p none).outcome u).2 = t := congrArg Prod.snd hdone
    have hvalue : ((a.nullable.set p none).outcome u).1 = .ok () := congrArg Prod.fst hdone
    refine ((hback _).outcome fun a => a.raw.get p).trans ?_
    rw [hagrees.erase huv (Prod.ext hvalue rfl)]

/-- Bulk writes to a slot with sound storage come to single ones, each of which changes one position. -/
theorem orderly_access (k : Kind) (slot : Nat) (shape : List Nat) (null : k.Elem) (gapless : Bool) :
    (access k slot shape).Orderly (Alike k slot shape null gapless) where
  stepwise :=
    { read := fun p n s t hst => by
        obtain ⟨σ, a, R, ⟨back, back', u, v, rfl, rfl, huv, hback, hback', hstep⟩, hagrees, horderly,
          -⟩ := hst.exists_lodged
        have hsize : a.nullable.size = sizeOf shape := hagrees.reads.size.trans (hback u).size
        obtain ⟨hvalue, hstate⟩ := horderly.stepwise.read p n u v huv
        rw [show (access k slot shape).nullable = channel slot shape Access.nullable from rfl,
          (hback u).outcome_readSpan Access.nullable,
          (mirrors_stepwise Access.nullable hback' hsize p).1 n v]
        exact ⟨hvalue, hstep hstate⟩
      write := fun p xs s t hst => by
        obtain ⟨σ, a, R, ⟨back, back', u, v, rfl, rfl, huv, hback, hback', hstep⟩, hagrees, horderly,
          -⟩ := hst.exists_lodged
        have hsize : a.nullable.size = sizeOf shape := hagrees.reads.size.trans (hback u).size
        obtain ⟨hvalue, hstate⟩ := horderly.stepwise.write p xs u v huv
        have hwrite : ((access k slot shape).nullable.write p xs).outcome (back u) = _ :=
          (hback u).outcome fun a => a.nullable.write p xs
        rw [hwrite, show (access k slot shape).nullable = channel slot shape Access.nullable from rfl,
          (mirrors_stepwise Access.nullable hback' hsize p).2 xs v]
        exact ⟨hvalue, hstep hstate⟩ }
  frame := by
    intro s s' t p q x hst hne hset
    obtain ⟨σ, a, R, ⟨back, -, u, v, rfl, -, huv, hback, -⟩, -, horderly, -⟩ := hst.exists_lodged
    have hrun := (hback u).outcome fun a => a.nullable.set p x
    have hdone := hrun.symm.trans hset
    obtain rfl : back ((a.nullable.set p x).outcome u).2 = t := congrArg Prod.snd hdone
    have hvalue : ((a.nullable.set p x).outcome u).1 = .ok () := congrArg Prod.fst hdone
    have hget : ∀ u, (((access k slot shape).raw.get q).outcome (back u)).1 =
        ((a.raw.get q).outcome u).1 := fun u =>
      congrArg Prod.fst ((hback u).outcome fun a => a.raw.get q)
    rw [hget, hget]
    exact horderly.frame huv hne (Prod.ext hvalue rfl)

/-- No element of a slot with gapless storage is missing. -/
theorem gapless_access (k : Kind) (slot : Nat) (shape : List Nat) (null : k.Elem) :
    (access k slot shape).Gapless (Alike k slot shape null true) where
  size := rfl
  get := fun p s t hst => by
    obtain ⟨σ, a, R, hlodged, -, -, hgapless⟩ := hst.exists_lodged
    exact hlodged.like (fun a => (a.raw.get p).run) (fun a => (a.nullable.get p).run)
      ((hgapless rfl).get p) _ _
  read := fun p n s t hst => by
    obtain ⟨σ, a, R, hlodged, -, -, hgapless⟩ := hst.exists_lodged
    exact hlodged.like (fun a => a.raw.read p n) (fun a => a.nullable.read p n)
      ((hgapless rfl).read p n) _ _

end Store

end Orthotope
