import Orthotope.Cube
import Orthotope.Storage.Bits
import Orthotope.Storage.Dense
import Orthotope.Storage.Files
import Orthotope.Storage.Probe
import Orthotope.Storage.Ragged
import Orthotope.Storage.Sparse

/-!
# The store

A `Leaf k` is the storage of one leaf cube, and a `Store` holds all of it: the leaves, each in a slot,
and the files that mapped leaves share.

`Store.access` is the access to the elements of a slot, as `Cube.access` needs it, and `Cube.elements`
the access to the elements of a cube over the store.
-/

namespace Orthotope

/-- The storage of a leaf. -/
inductive Leaf : Kind → Type where
  | dense {k : Kind} (content : Dense k.Elem) : Leaf k
  | sparse {k : Kind} (content : Sparse k) : Leaf k
  | ragged {k : Kind} (content : Nested k.Elem) : Leaf k
  | bits (content : BitSet) : Leaf .bool
  | mapped {k : Kind} (mapping : Mapping) : Leaf k
  | probe {k : Kind} (content : Probe k.Elem) : Leaf k

/-- All storage. A slot whose leaf was taken away is empty. -/
structure Store where
  leaves : Array (Option ((k : Kind) × Leaf k)) := #[]
  files : Files := ∅

namespace Leaf

variable {k : Kind} {α : Type}

/-- Does something with the storage of a leaf, whichever storage that is. `ask` picks the effect from
the access to it. -/
def perform (shape : List Nat) (ask : {σ : Type} → Access σ k.Elem → Effect σ α) :
    Leaf k → Files → Outcome (Leaf k × Files) α
  | dense content, files =>
    let done := ask (Dense.access shape k.null) content
    ⟨done.value, done.events, (dense done.state, files)⟩
  | sparse content, files =>
    let done := ask (Sparse.access shape) content
    ⟨done.value, done.events, (sparse done.state, files)⟩
  | ragged content, files =>
    let done := ask (Nested.access shape k.null) content
    ⟨done.value, done.events, (ragged done.state, files)⟩
  | bits content, files =>
    let done := ask (Bits.access shape) content
    ⟨done.value, done.events, (bits done.state, files)⟩
  | mapped mapping, files =>
    let done := ask (mapping.access k shape) files
    ⟨done.value, done.events, (mapped mapping, done.state)⟩
  | probe content, files =>
    let done := ask (Probe.access shape k.null) content
    ⟨done.value, done.events, (probe done.state, files)⟩

end Leaf

namespace Store

variable {k : Kind} {α : Type}

/-- The leaf in a slot, if it is one of the given kind. -/
def leaf? (s : Store) (k : Kind) (slot : Nat) : Option (Leaf k) :=
  match s.leaves.getD slot none with
  | some ⟨kind, leaf⟩ => if h : kind = k then some (h ▸ leaf) else none
  | none => none

/-- Puts a leaf into a new slot. -/
def add (s : Store) (leaf : Leaf k) : Nat × Store :=
  (s.leaves.size, { s with leaves := s.leaves.push (some ⟨k, leaf⟩) })

/-- Puts a leaf into a slot that is there. -/
def put (s : Store) (slot : Nat) (leaf : Leaf k) : Store :=
  { s with leaves := s.leaves.setIfInBounds slot (some ⟨k, leaf⟩) }

/-- Empties a slot. -/
def clear (s : Store) (slot : Nat) : Store :=
  { s with leaves := s.leaves.setIfInBounds slot none }

/-- Does something with the storage in a slot. The slot and the files are taken out of the store while
that lasts, so that they are changed in place. `absent` is the answer if the slot has no leaf of the
kind. -/
def perform (slot : Nat) (shape : List Nat) (absent : α)
    (ask : {σ : Type} → Access σ k.Elem → Effect σ α) : Effect Store α := fun s =>
  match s.leaf? k slot with
  | none => ⟨absent, [], s⟩
  | some leaf =>
    let files := s.files
    let rest := { s.clear slot with files := ∅ }
    let done := leaf.perform shape ask files
    ⟨done.value, done.events, { rest with files := done.state.2 }.put slot done.state.1⟩

/-- A slot without storage. -/
def missing {β : Type} : Except Error β := .error (.misuse .slot)

/-- The access to the elements of a slot, through the channel that `pick` picks. -/
def channel {β : Type} (slot : Nat) (shape : List Nat)
    (pick : {σ : Type} → Access σ k.Elem → Channel σ β) : Channel Store β where
  size := sizeOf shape
  get pos := ExceptT.mk (perform slot shape missing fun a => ((pick a).get pos).run)
  set pos x := ExceptT.mk (perform slot shape missing fun a => ((pick a).set pos x).run)
  read pos count := perform slot shape ⟨[], missing⟩ fun a => (pick a).read pos count
  write pos xs := ExceptT.mk (perform slot shape missing fun a => ((pick a).write pos xs).run)

/-- Access to the elements of a slot. -/
def access (k : Kind) (slot : Nat) (shape : List Nat) : Access Store k.Elem where
  raw := channel slot shape Access.raw
  nullable := channel slot shape Access.nullable
  flush := ExceptT.mk (perform (k := k) slot shape missing fun a => a.flush.run)

end Store

/-- Access to the elements of a cube over the store. -/
def Cube.elements {k : Kind} (c : Cube k) : Access Store k.Elem :=
  c.access Store.access

end Orthotope
