import Orthotope.Proofs.Store.Missing
import Orthotope.Proofs.Store.Requests
import Orthotope.Proofs.Store.Session

/-!
# Ways to make a leaf

A `LeafSource` is a way to make a leaf cube over new storage, of any kind of storage but probes. What is
made is sound (`LeafSource.sound_make`), and a missing element of it has the value that the source
says.
-/

namespace Orthotope

variable {k : Kind} {slot : Nat} {shape : List Nat} {s : Store}

namespace Store

/-- Storage that holds something is sound and gapless. -/
theorem Holds.sound {f : Nat → k.Elem} (h : s.Holds k slot shape f) :
    s.Sound k slot shape k.null true := by
  obtain ⟨leaf, hleaf, hholds⟩ := h
  refine ⟨leaf, hleaf, ?_⟩
  cases leaf with
  | dense => exact ⟨hholds.1, rfl, rfl⟩
  | bits => exact ⟨hholds.1, rfl, rfl⟩
  | mapped =>
    obtain ⟨hwritable, bytes, hfile, hsize, -⟩ := hholds
    exact ⟨⟨hwritable, bytes, hfile, hsize⟩, rfl, rfl⟩
  | sparse | ragged | probe => exact hholds.elim

/-- Sound storage in a new slot. -/
theorem sound_add (content : Leaf k) (h : content.Sound shape s.files) :
    (s.add content).2.Sound k (s.add content).1 shape content.missing content.gapless :=
  ⟨content, leaf?_eq_some.2 Array.getElem?_push_size, h, rfl, rfl⟩

/-- New storage leaves what is in other slots. -/
theorem leaf?_add {leaf : Leaf k} (h : s.leaf? k slot = some leaf) {k' : Kind} (content : Leaf k') :
    (s.add content).2.leaf? k slot = some leaf := by
  rw [leaf?_eq_some] at h ⊢
  obtain ⟨hlt, hget⟩ := Array.getElem?_eq_some_iff.1 h
  exact (Array.getElem?_push_lt hlt).trans (congrArg some hget)

section
variable {P : Leaf k → Files → Prop}

/-- New storage leaves other storage as it is. -/
theorem Has.add (h : s.Has k slot P) {k' : Kind} (content : Leaf k') :
    (s.add content).2.Has k slot P := by
  obtain ⟨leaf, hleaf, hleafP⟩ := h
  exact ⟨leaf, leaf?_add hleaf content, hleafP⟩

/-- A lasting property stays while files change, unless one is gone or shorter. -/
theorem Has.grown (h : s.Has k slot P) (hP : Leaf.Lasting P) {files : Files}
    (hgrown : s.files.Grown files) : Has { s with files } k slot P := by
  obtain ⟨leaf, hleaf, hleafP⟩ := h
  exact ⟨leaf, hleaf, hP.grown hleafP hgrown⟩

end

end Store

/-- A way to make a leaf cube. -/
inductive LeafSource : Kind → Type where
  /-- Dense storage with the given axes. -/
  | dense {k : Kind} (dims : List Dimension) (source : DenseSource k) : LeafSource k
  /-- Sparse storage without entries. -/
  | sparse {k : Kind} (dims : List Dimension) (null : k.Elem) (loading : Binary .double) : LeafSource k
  /-- Nested lists. -/
  | ragged {k : Kind} (items : Nested k.Elem) : LeafSource k
  /-- Packed truth values, all false. -/
  | bits (dims : List Dimension) : LeafSource .bool
  /-- The marks of a bit set. -/
  | ofBits (shape : List Nat) (marks : BitSet) (canonical : marks.Canonical) : LeafSource .bool
  /-- A file that is made or emptied. -/
  | createFile {k : Kind} (name : String) (shape : List Nat) : LeafSource k
  /-- A file that is there and may be written. -/
  | openFile {k : Kind} (name : String) (shape : List Nat) : LeafSource k

namespace LeafSource

/-- Makes the leaf cube. -/
def make : {k : Kind} → LeafSource k → Session (Cube k)
  | _, dense dims source => source.make dims
  | k, sparse dims null loading => Session.sparse k dims null loading
  | k, ragged items => Session.ragged k items
  | _, bits dims => Session.bits dims
  | _, ofBits shape marks _ => Session.ofBits shape marks
  | k, createFile name shape => Session.createFile k name shape
  | k, openFile name shape => Session.openFile k name shape true

/-- The value that a missing element of the cube reads as. -/
def missing : {k : Kind} → LeafSource k → k.Elem
  | _, sparse _ null _ => null
  | k, _ => k.null

/-- Whether no element of the cube is missing. -/
def gapless : {k : Kind} → LeafSource k → Bool
  | _, sparse .. => false
  | _, ragged _ => false
  | _, _ => true

theorem sound_of_makesStorage {make : Session (Cube k)} {dims : List Dimension}
    (h : make.MakesStorage dims) {w w' : Workspace} {c : Cube k}
    (hrun : make.run.run w = (.ok c, w')) :
    ∃ slot dims, c = .leaf k slot dims ∧ w'.store.Sound k slot (shapeOf dims) k.null true := by
  obtain ⟨slot, f, hc, hholds⟩ := h hrun
  exact ⟨slot, dims, hc, hholds.sound⟩

/-- A leaf cube that was made is over sound storage. -/
theorem sound_make (source : LeafSource k) {w w' : Workspace} {c : Cube k}
    (hrun : source.make.run.run w = (.ok c, w')) :
    ∃ slot dims, c = .leaf k slot dims ∧
      w'.store.Sound k slot (shapeOf dims) source.missing source.gapless := by
  cases source with
  | dense dims source =>
    cases source with
    | filled chunkShift => exact sound_of_makesStorage (Session.makesStorage_filled chunkShift) hrun
    | ofList items => exact sound_of_makesStorage (Session.makesStorage_ofList items) hrun
    | wrap items => exact sound_of_makesStorage (Session.makesStorage_wrap items) hrun
  | sparse dims null loading =>
    simp only [make, Session.sparse, Session.checkLoading] at hrun
    split at hrun
    · cases hrun
    · cases hrun
      exact ⟨_, dims, rfl, Store.sound_add (.sparse _) trivial⟩
  | ragged items =>
    have hmake : (make (ragged items)).run.run w = _ := Session.run_ragged items w
    rw [hmake] at hrun
    cases hshape : items.shape with
    | error e =>
      rw [hshape] at hrun
      cases hrun
    | ok shape =>
      rw [hshape] at hrun
      cases hrun
      exact ⟨_, _, rfl, Store.sound_add (.ragged items) trivial⟩
  | bits dims => exact sound_of_makesStorage Session.makesStorage_bits hrun
  | ofBits shape marks canonical =>
    exact sound_of_makesStorage (Session.makesStorage_ofBits canonical) hrun
  | createFile name shape =>
    exact sound_of_makesStorage (Session.makesStorage_createFile name shape) hrun
  | openFile name shape =>
    exact sound_of_makesStorage (Session.makesStorage_openFile name shape) hrun

end LeafSource

end Orthotope
