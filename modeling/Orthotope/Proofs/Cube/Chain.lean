import Orthotope.Proofs.Cube.Derivation

/-!
# Chains of derivations

Operations are done one after the other, and each may be folded into what the ones before it made. The
documented meaning of a chain knows nothing of that: it composes the meanings of the single steps
(`Derivation.shapes`, `Derivation.places`). `Chain.presents` proves that the two agree from any cube
that fits, and `Chain.refers_to_leaf` reads this off for a leaf: every coordinate of the last cube
reaches the element of the leaf that the composed steps name.
-/

namespace Orthotope

namespace Derivation

/-- The shape that a list of operations gives, one after the other. -/
def shapes (shape : List Nat) : List Derivation → List Nat
  | [] => shape
  | op :: ops => shapes (op.shape shape) ops

/-- The coordinates of the first cube that the coordinates of the last one show. -/
def places (shape : List Nat) : List Derivation → List Nat → List Nat
  | [], cs => cs
  | op :: ops, cs => op.place shape (places (op.shape shape) ops cs)

end Derivation

variable {k : Kind}

/-- A list of operations leads from one cube to another, each of them succeeding. Any serial numbers
will do. -/
inductive Chain : Cube k → List Derivation → Cube k → Prop where
  | nil : Chain c [] c
  | cons {c d e : Cube k} {serial : Nat} {op : Derivation} {ops : List Derivation}
      (first : op.make serial c = .ok d) (rest : Chain d ops e) : Chain c (op :: ops) e

variable {c d : Cube k} {ops : List Derivation}

/-- A chain from a cube that fits does what its steps do one by one. -/
theorem Chain.presents (h : Chain c ops d) (hfits : c.Fits) :
    Cube.Presents d c (Derivation.shapes c.shape ops) (Derivation.places c.shape ops) := by
  induction h with
  | nil => exact Cube.Presents.refl hfits
  | cons first _ ih =>
    have hfirst := Derivation.presents hfits _ first
    have hrest := ih hfirst.fits
    rw [hfirst.shape_eq] at hrest
    exact hrest.trans hfirst

section
variable {slot : Nat} {dims : List Dimension}

/-- Every view that is reached from a leaf fits. -/
theorem Chain.fits (h : Chain (.leaf k slot dims) ops c) : c.Fits := (h.presents trivial).fits

theorem Chain.base (h : Chain (.leaf k slot dims) ops c) : c.base = .leaf k slot dims :=
  (h.presents trivial).base

/-- However its steps were folded, a chain from a leaf has the shape that its steps say, and each of its
coordinates refers to the coordinates of the leaf that its steps say, whatever keeps the elements. -/
theorem Chain.refers_to_leaf (h : Chain (.leaf k slot dims) ops c) :
    c.shape = Derivation.shapes (shapeOf dims) ops ∧
    ∀ cs, Within c.shape cs →
      let cs' := Derivation.places (shapeOf dims) ops cs
      Within (shapeOf dims) cs' ∧
      c.origin (offset c.shape cs) = offset (shapeOf dims) cs' ∧
      ∀ {σ : Type} (slots : (k : Kind) → Nat → List Nat → Access σ k.Elem),
        (c.access slots).SameAt (slots k slot (shapeOf dims)) (offset c.shape cs)
          (offset (shapeOf dims) cs') := by
  have hpresents := h.presents trivial
  have hshape : c.shape = Derivation.shapes (shapeOf dims) ops := hpresents.shape_eq
  refine ⟨hshape, fun cs hc => ?_⟩
  have hlt : offset c.shape cs < c.size := offset_lt hc
  have horigin : c.origin (offset c.shape cs) =
      offset (shapeOf dims) (Derivation.places (shapeOf dims) ops cs) := by
    rw [hshape] at hc ⊢
    exact hpresents.origin hc
  refine ⟨hpresents.within (hshape ▸ hc), horigin, fun slots => ?_⟩
  have hsame := Cube.sameAt_origin slots h.fits hlt
  rw [h.base, horigin] at hsame
  exact hsame

end

end Orthotope
