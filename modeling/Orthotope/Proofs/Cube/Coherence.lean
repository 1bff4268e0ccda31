import Orthotope.Proofs.Cube.Chain
import Orthotope.Proofs.Cube.Writing
import Orthotope.Proofs.Store.Faithful

/-!
# Coherent views

Cubes that were derived from one leaf share its elements. What is written through one of them is seen
through all others, exactly where they refer to the positions that were written
(`Chain.writes_coherent`).
-/

namespace Orthotope

variable {k : Kind} {slot : Nat} {dims : List Dimension} {c v w : Cube k} {ops ops' : List Derivation}
  {s s' : Store} {f : Nat → k.Elem}

namespace Chain

theorem size_floor (h : Chain (.leaf k slot dims) ops c) :
    (c.floor Store.access).size = c.base.size := by
  rw [Cube.floor, h.base]
  rfl

theorem faithful_floor (h : Chain (.leaf k slot dims) ops c) :
    (c.floor Store.access).Faithful fun s f => s.Holds k slot (shapeOf dims) f := by
  rw [Cube.floor, h.base]
  exact Store.faithful ..

theorem size_raw (h : Chain (.leaf k slot dims) ops c) : c.elements.raw.size = c.size :=
  Cube.size_raw h.size_floor

/-- A cube derived from a leaf shows what the leaf holds at the origins of its positions. -/
theorem shows (h : Chain (.leaf k slot dims) ops c) (hs : s.Holds k slot (shapeOf dims) f) :
    c.elements.raw.Shows s fun p => f (c.origin p) :=
  h.fits.shows h.size_floor h.faithful_floor hs

end Chain

end Orthotope
