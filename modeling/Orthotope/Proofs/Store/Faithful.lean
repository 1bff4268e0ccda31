import Orthotope.Proofs.Storage.Bits
import Orthotope.Proofs.Storage.Dense
import Orthotope.Proofs.Storage.Files
import Orthotope.Store

/-!
# Slots of the store

A slot with dense storage, with packed truth values or with a mapping that may be written holds what
that storage holds (`Store.Holds`), and the access to the slot is faithful (`Store.faithful`).

An access to a slot takes the storage out of the store, works on it and puts it back.
`Store.Backs` says what that comes to, so that the faithfulness of each kind of storage carries over
in one proof (`Store.Backs.serves`), and what the storage shows the access shows too
(`Store.Backs.shows`).
-/

namespace Orthotope

/-- What the storage of a leaf holds, for the kinds of storage that take every element and keep it. -/
def Leaf.Holds (shape : List Nat) : {k : Kind} → Leaf k → Files → (Nat → k.Elem) → Prop
  | _, .dense content, _, f => content.Holds (sizeOf shape) f
  | _, .bits content, _, f => Bits.Holds (sizeOf shape) content f
  | _, .mapped m, files, f => m.Holds (sizeOf shape) files f
  | _, .sparse _, _, _ => False
  | _, .ragged _, _, _ => False
  | _, .probe _, _, _ => False

section
variable {k : Kind} {shape : List Nat} {files : Files} {f : Nat → k.Elem}

@[simp] theorem Leaf.holds_dense {content : Dense k.Elem} :
    (Leaf.dense content).Holds shape files f ↔ content.Holds (sizeOf shape) f := Iff.rfl
@[simp] theorem Leaf.holds_bits {content : BitSet} {f : Nat → Bool} :
    (Leaf.bits content).Holds shape files f ↔ Bits.Holds (sizeOf shape) content f := Iff.rfl
@[simp] theorem Leaf.holds_mapped {m : Mapping} :
    (Leaf.mapped m).Holds shape files f ↔ m.Holds (sizeOf shape) files f := Iff.rfl

end

namespace Store

variable {k : Kind} {s : Store} {slot : Nat} {shape : List Nat} {leaf leaf' : Leaf k}
  {files : Files} {f : Nat → k.Elem}

theorem leaf?_eq_some : s.leaf? k slot = some leaf ↔ s.leaves[slot]? = some (some ⟨k, leaf⟩) := by
  unfold leaf?
  rw [Array.getD_eq_getD_getElem?]
  rcases s.leaves[slot]? with _ | _ | ⟨kind, content⟩
  · simp
  · simp
  · by_cases h : kind = k
    · subst h
      simp
    · simp [h]

/-- The store with other storage in a slot and other files. -/
def restore (s : Store) (slot : Nat) (done : Leaf k × Files) : Store :=
  { s.put slot done.1 with files := done.2 }

/-- Putting back what is there changes nothing. -/
theorem restore_self (h : s.leaf? k slot = some leaf) : s.restore slot (leaf, s.files) = s := by
  have hself : s.leaves.setIfInBounds slot (some ⟨k, leaf⟩) = s.leaves := by
    apply Array.ext_getElem?
    intro j
    rw [Array.getElem?_setIfInBounds]
    split
    · next heq =>
      subst heq
      obtain ⟨hlt, -⟩ := Array.getElem?_eq_some_iff.1 (leaf?_eq_some.1 h)
      rw [if_pos hlt, leaf?_eq_some.1 h]
    · rfl
  unfold restore put
  rw [hself]

/-- What was put into a slot is found there. -/
theorem leaf?_restore (h : s.leaf? k slot = some leaf) :
    (s.restore slot (leaf', files)).leaf? k slot = some leaf' := by
  obtain ⟨hlt, -⟩ := Array.getElem?_eq_some_iff.1 (leaf?_eq_some.1 h)
  rw [leaf?_eq_some]
  show (s.leaves.setIfInBounds slot _)[slot]? = _
  rw [Array.getElem?_setIfInBounds, if_pos rfl, if_pos hlt]

/-- Something done in a slot is done to the leaf there, and the rest of the store stays. -/
theorem perform_eq {α : Type} (h : s.leaf? k slot = some leaf) (absent : α)
    (ask : {σ : Type} → Access σ k.Elem → Effect σ α) :
    perform slot shape absent ask s =
      ⟨(leaf.perform shape ask s.files).value, (leaf.perform shape ask s.files).events,
        s.restore slot (leaf.perform shape ask s.files).state⟩ := by
  unfold perform
  rw [h]
  dsimp only
  generalize leaf.perform shape ask s.files = done
  have htwice : (s.leaves.setIfInBounds slot none).setIfInBounds slot (some ⟨k, done.state.1⟩) =
      s.leaves.setIfInBounds slot (some ⟨k, done.state.1⟩) := Array.setIfInBounds_setIfInBounds ..
  unfold restore put clear
  dsimp only
  rw [htwice]

/-! ## Storage behind a slot -/

/-- Storage in the state `t` is what the store has in a slot: what is done in the slot is done to that
storage through `a`, and `back` makes a store of the state that it is left in. -/
structure Backs {σ : Type} (s : Store) (slot : Nat) (shape : List Nat) (a : Access σ k.Elem) (t : σ)
    (back : σ → Store) : Prop where
  now : back t = s
  size : a.raw.size = sizeOf shape
  perform : ∀ {α : Type} (absent : α) (ask : {σ : Type} → Access σ k.Elem → Effect σ α),
    perform slot shape absent ask s =
      ⟨(ask a t).value, (ask a t).events, back (ask a t).state⟩

/-! What is in a slot, for each kind of storage. A mapping has its state in the files. -/

theorem backs_dense {content : Dense k.Elem} (hleaf : s.leaf? k slot = some (.dense content)) :
    s.Backs slot shape (Dense.access shape k.null) content
      fun content => s.restore slot (Leaf.dense content, s.files) :=
  ⟨restore_self hleaf, rfl, fun absent ask => perform_eq hleaf absent ask⟩

theorem backs_sparse {content : Sparse k} (hleaf : s.leaf? k slot = some (.sparse content)) :
    s.Backs slot shape (Sparse.access shape) content
      fun content => s.restore slot (Leaf.sparse content, s.files) :=
  ⟨restore_self hleaf, rfl, fun absent ask => perform_eq hleaf absent ask⟩

theorem backs_ragged {content : Nested k.Elem} (hleaf : s.leaf? k slot = some (.ragged content)) :
    s.Backs slot shape (Nested.access shape k.null) content
      fun content => s.restore slot (Leaf.ragged content, s.files) :=
  ⟨restore_self hleaf, rfl, fun absent ask => perform_eq hleaf absent ask⟩

theorem backs_bits {marks : BitSet} (hleaf : s.leaf? .bool slot = some (.bits marks)) :
    s.Backs (k := .bool) slot shape (Bits.access shape) marks
      fun marks => s.restore slot (Leaf.bits marks, s.files) :=
  ⟨restore_self hleaf, rfl, fun absent ask => perform_eq hleaf absent ask⟩

theorem backs_mapped {m : Mapping} (hleaf : s.leaf? k slot = some (.mapped m)) :
    s.Backs slot shape (m.access k shape) s.files
      fun files => s.restore slot (Leaf.mapped (k := k) m, files) :=
  ⟨restore_self hleaf, rfl, fun absent ask => perform_eq hleaf absent ask⟩

section
variable {σ α : Type} {a : Access σ k.Elem} {t : σ} {back : σ → Store}

theorem Backs.outcome (h : s.Backs slot shape a t back)
    (ask : {σ : Type} → Access σ k.Elem → Act σ α) :
    Act.outcome (σ := Store) (ExceptT.mk (Store.perform slot shape missing fun a => (ask a).run)) s =
      (((ask a).outcome t).1, back ((ask a).outcome t).2) := by
  have hrun := h.perform missing fun a => (ask a).run
  unfold Act.outcome
  rw [ExceptT.run_mk, Effect.run, hrun]
  rfl

theorem Backs.outcome_readSpan {β : Type} (h : s.Backs slot shape a t back)
    (pick : {σ : Type} → Access σ k.Elem → Channel σ β) (p n : Nat) :
    ((channel slot shape pick).readSpan ⟨p, n⟩).outcome s =
      ((((pick a).readSpan ⟨p, n⟩).outcome t).1, back (((pick a).readSpan ⟨p, n⟩).outcome t).2) := by
  have hrun := h.perform ⟨[], missing⟩ fun a => (pick a).read p n
  rw [Channel.readSpan_eq, Channel.readSpan_eq]
  show (Transfer.whole (Store.perform slot shape ⟨[], missing⟩ (fun a => (pick a).read p n) s).value,
    (Store.perform slot shape ⟨[], missing⟩ (fun a => (pick a).read p n) s).state) = _
  rw [hrun]
  rfl

/-- Through a slot, storage serves as it does by itself. -/
theorem Backs.serves {holds : σ → (Nat → k.Elem) → Prop} {held : Store → (Nat → k.Elem) → Prop}
    (h : s.Backs slot shape a t back) (hserves : a.raw.Serves holds t f)
    (hheld : ∀ {t' g}, holds t' g → held (back t') g) :
    (channel slot shape Access.raw).Serves held s f := by
  have hsize : a.raw.size = (channel (k := k) slot shape Access.raw).size := h.size
  refine ⟨fun {p} hp => ?get, fun {p} x hp => ?set, fun {p n} hle => ?read,
    fun {p xs} hle => ?write, fun {p x s'} hset => ?set_lt, fun {p xs s'} hwrite => ?write_le⟩
  case get =>
    refine (h.outcome fun a => a.raw.get p).trans ?_
    rw [hserves.get (hsize ▸ hp), h.now]
  case set =>
    obtain ⟨t', hrun, ht'⟩ := hserves.set x (hsize ▸ hp)
    refine ⟨back t', (h.outcome fun a => a.raw.set p x).trans ?_, hheld ht'⟩
    rw [hrun]
  case read =>
    rw [h.outcome_readSpan Access.raw, hserves.read (hsize ▸ hle), h.now]
  case write =>
    obtain ⟨t', hrun, ht'⟩ := hserves.write (hsize ▸ hle)
    refine ⟨back t', (h.outcome fun a => a.raw.write p xs).trans ?_, hheld ht'⟩
    rw [hrun]
  case set_lt =>
    have hvalue := congrArg Prod.fst ((h.outcome fun a => a.raw.set p x).symm.trans hset)
    exact hsize ▸ hserves.set_lt (Prod.ext hvalue rfl)
  case write_le =>
    have hvalue := congrArg Prod.fst ((h.outcome fun a => a.raw.write p xs).symm.trans hwrite)
    exact hsize ▸ hserves.write_le (Prod.ext hvalue rfl)

/-- A slot shows what the storage there shows. -/
theorem Backs.shows {β : Type} {f : Nat → β} (h : s.Backs slot shape a t back)
    (pick : {σ : Type} → Access σ k.Elem → Channel σ β) (hsize : (pick a).size = sizeOf shape)
    (hshows : (pick a).Shows t f) : (channel slot shape pick).Shows s f where
  get {p} hp := by
    refine (h.outcome fun a => (pick a).get p).trans ?_
    rw [hshows.get (hsize ▸ hp), h.now]
  read {p n} hle := by
    rw [h.outcome_readSpan pick]
    exact hshows.read (hsize ▸ hle)

end

/-! ## The channel -/

/-- A slot holds what the storage in it holds. -/
def Holds (s : Store) (k : Kind) (slot : Nat) (shape : List Nat) (f : Nat → k.Elem) : Prop :=
  ∃ leaf : Leaf k, s.leaf? k slot = some leaf ∧ leaf.Holds shape s.files f

theorem Holds.serves (h : s.Holds k slot shape f) :
    (channel slot shape Access.raw).Serves (fun s f => s.Holds k slot shape f) s f := by
  obtain ⟨leaf, hleaf, hholds⟩ := h
  cases leaf with
  | dense =>
    exact (backs_dense hleaf).serves hholds.serves fun hheld => ⟨_, leaf?_restore hleaf, hheld⟩
  | bits =>
    exact (backs_bits hleaf).serves (Bits.Holds.serves hholds) fun hheld =>
      ⟨_, leaf?_restore hleaf, hheld⟩
  | mapped =>
    exact (backs_mapped hleaf).serves (Mapping.Holds.serves hholds) fun hheld =>
      ⟨_, leaf?_restore hleaf, hheld⟩
  | sparse | ragged | probe => exact hholds.elim

/-- Access to a slot that holds something is faithful. -/
theorem faithful (k : Kind) (slot : Nat) (shape : List Nat) :
    (access k slot shape).raw.Faithful fun s f => s.Holds k slot shape f where
  serves h := h.serves
  congr := by
    rintro s f g ⟨leaf, hleaf, hholds⟩ hfg
    refine ⟨leaf, hleaf, ?_⟩
    cases leaf with
    | dense => exact (Dense.faithful _).congr hholds hfg
    | bits => exact (Bits.faithful _).congr hholds hfg
    | mapped m => exact (m.faithful k _).congr hholds hfg
    | sparse | ragged | probe => exact hholds.elim

end Store

end Orthotope
