import Orthotope.Proofs.Channel.Layers
import Orthotope.Proofs.Cube.Derivation
import Orthotope.Store

/-!
# Bulk transfers through stacks of layers

A cube is a leaf under a stack of views and conversions. The leaf need not be one that this library
knows: `slots` may give any access to it, which may refuse positions. All that is asked is that its
bulk transfers come to what single accesses come to, on requests that are in range and not empty
(`Access.Uniform`). Then all bulk transfers through any stack do, on every request
(`Layered.likeStepwise`).

The induction is on the stack. A layer over a uniform access is like its stepwise form
(`Access.Uniform.through`, `Access.Uniform.convert`), and what is like its stepwise form is uniform,
so that the next layer can stand on it.

The runs of a transfer here take at least one position each. A loop that takes that for granted nowhere makes
the same transfers (`Layered.likeStepwise_accessIn`), because in a view that fits no run is empty
(`View.Fits.visitRuns_eq`).
-/

namespace Orthotope

variable {σ : Type} {R : σ → σ → Prop}

namespace Access

variable {α : Type}

/-- Both channels have `size` positions and make bulk transfers that are in range and not empty as single
accesses would. -/
structure Uniform (R : σ → σ → Prop) (size : Nat) (a : Access σ α) : Prop where
  size_raw : a.raw.size = size
  size_nullable : a.nullable.size = size
  raw : a.raw.Uniform R
  nullable : a.nullable.Uniform R

/-- Both channels make all bulk transfers as single accesses would. -/
structure LikeStepwise (R : σ → σ → Prop) (a : Access σ α) : Prop where
  raw : a.raw.LikeStepwise R
  nullable : a.nullable.LikeStepwise R

variable {a : Access σ α} {size : Nat}

theorem LikeStepwise.uniform (h : a.LikeStepwise R) (hraw : a.raw.size = size)
    (hnullable : a.nullable.size = size) : a.Uniform R size :=
  ⟨hraw, hnullable, h.raw.uniform, h.nullable.uniform⟩

/-- Bulk transfers made one element at a time are made as single accesses would make them. -/
theorem likeStepwise_stepwise (a : Access σ α) : a.stepwise.LikeStepwise (· = ·) where
  raw := Channel.likeStepwise_stepwise a.raw
  nullable := Channel.likeStepwise_stepwise a.nullable

theorem Uniform.through {v : View} (h : a.Uniform R (sizeOf v.source)) (hv : v.Fits) :
    (a.through v).LikeStepwise R where
  raw := h.raw.through hv h.size_raw
  nullable := h.nullable.through hv h.size_nullable

theorem Uniform.convert {source : Kind} {a : Access σ source.Elem} (h : a.Uniform R size)
    (target : Kind) : (a.convert target).LikeStepwise R where
  raw := h.raw.convert ..
  nullable := h.nullable.convert ..

end Access

namespace Cube

/-- The leaf under a stack of layers: its kind, its slot and its axes. -/
def bottom : {k : Kind} → Cube k → Kind × Nat × List Dimension
  | k, leaf _ slot dims => (k, slot, dims)
  | _, view _ inner _ _ => inner.bottom
  | _, cast _ inner _ => inner.bottom

variable {k k₀ : Kind} {c : Cube k} {slot : Nat} {dims : List Dimension}
  {slots : (k : Kind) → Nat → List Nat → Access σ k.Elem}

theorem bottom_base : c.base.bottom = c.bottom := by
  induction c with
  | leaf | cast => rfl
  | view serial inner dims transform ih => exact ih

/-- A stack of views that fit and conversions is uniform if the leaf is. -/
theorem Fits.uniform (h : c.Fits) (hbottom : c.bottom = (k₀, slot, dims))
    (hleaf : (slots k₀ slot (shapeOf dims)).Uniform R (sizeOf (shapeOf dims))) :
    (c.access slots).Uniform R c.size := by
  induction c with
  | leaf =>
    obtain ⟨rfl, rfl, rfl⟩ : _ ∧ _ ∧ _ := by simpa [bottom] using hbottom
    exact hleaf
  | view serial inner dims transform ih =>
    exact ((ih h.1 hbottom).through h.2).uniform rfl rfl
  | cast serial inner target ih =>
    have hinner := ih h hbottom
    exact (hinner.convert target).uniform hinner.size_raw hinner.size_nullable

end Cube

/-- A cube is reached from another by derivations and conversions. -/
inductive Layered {k₀ : Kind} (root : Cube k₀) : {k : Kind} → Cube k → Prop where
  | root : Layered root root
  | derive {k : Kind} {c d : Cube k} {serial : Nat} {op : Derivation} (beneath : Layered root c)
      (make : op.make serial c = .ok d) : Layered root d
  | convert {k target : Kind} {c : Cube k} {serial : Nat} (beneath : Layered root c) :
      Layered root (c.convert serial target)

namespace Layered

variable {k₀ k : Kind} {slot : Nat} {dims : List Dimension} {c : Cube k}

/-- What is reached from a leaf is a stack of views that fit and conversions over that leaf. -/
theorem fits_and_bottom (h : Layered (.leaf k₀ slot dims) c) :
    c.Fits ∧ c.bottom = (k₀, slot, dims) := by
  induction h with
  | root => exact ⟨trivial, rfl⟩
  | derive _ make ih =>
    have hpresents := Derivation.presents ih.1 _ make
    refine ⟨hpresents.fits, ?_⟩
    rw [← Cube.bottom_base, hpresents.base, Cube.bottom_base]
    exact ih.2
  | convert _ ih => exact ih

/-- Through any stack of views and conversions over a leaf, bulk transfers come to what single accesses
come to: the same answer or failure, the same elements read, and the same state up to `R`, also when
a write fails part way. -/
theorem likeStepwise {slots : (k : Kind) → Nat → List Nat → Access σ k.Elem}
    (h : Layered (.leaf k₀ slot dims) c) (hother : c.same (.leaf k₀ slot dims) = false)
    (hleaf : (slots k₀ slot (shapeOf dims)).Uniform R (sizeOf (shapeOf dims))) :
    (c.access slots).LikeStepwise R := by
  obtain ⟨hfits, hbottom⟩ := h.fits_and_bottom
  cases c with
  | leaf =>
    obtain ⟨rfl, rfl, rfl⟩ : _ ∧ _ ∧ _ := by simpa [Cube.bottom] using hbottom
    simp [Cube.same] at hother
  | view serial inner dims transform =>
    exact (hfits.1.uniform hbottom hleaf).through hfits.2
  | cast serial inner =>
    have hinner : inner.Fits := hfits
    exact (hinner.uniform hbottom hleaf).convert k

/-- A transposed view of converted elements, over a leaf that leaves bulk transfers to single calls. -/
theorem likeStepwise_transposed_conversion :
    let leaf : Cube .i32 := .leaf .i32 0 [.ofLength 2, .ofLength 3]
    let slots := fun k slot shape => (Store.access k slot shape).stepwise
    (((leaf.convert 0 .f64).transpose 1).access slots).LikeStepwise (· = ·) := by
  intro leaf slots
  have h : Layered leaf ((leaf.convert 0 .f64).transpose 1) :=
    .derive (.convert .root) (rfl : Derivation.transpose.make 1 _ = _)
  refine likeStepwise h (by decide) ?_
  exact (Access.likeStepwise_stepwise _).uniform rfl rfl

end Layered

end Orthotope
