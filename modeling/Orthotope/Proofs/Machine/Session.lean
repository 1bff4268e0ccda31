import Orthotope.Machine.Session
import Orthotope.Proofs.BitSet.Edits
import Orthotope.Proofs.Machine.Derive

/-!
# What computed sessions come to

Storage whose size can be computed in 64 bits is made in any arithmetic as it is described
(`Session.measured_eq`). Otherwise making it overflows (`Session.measured_overflow`).

If the views of a cube fit and nothing overflows, whole cubes are copied, compared and read as it is
described, since their elements are (`Cube.Fits.elementsIn_eq`).
-/

namespace Orthotope

open Arithmetic

variable {k : Kind} {α : Type} {m : Arithmetic} {shape : List Nat} {c d : Cube k} {marks : Cube .bool}

theorem Cube.Fits.elementsIn_eq (h : c.Fits) (hm : ∀ v ∈ c.stacked, m = .unbounded ∨ v.Small) :
    c.elementsIn m = c.elements := h.accessIn_eq hm Store.access

namespace Session

/-! ## Making storage -/

theorem measured_eq (h : m.Measures shape) (make : Nat → Session α) :
    measured m shape make = make (sizeOf shape) := by
  unfold measured
  rw [h.sizeIn_eq]
  rfl

theorem measured_overflow (h : ¬Measured shape) (make : Nat → Session α) :
    measured .checked shape make = throw (.misuse .overflow) := by
  unfold measured
  rw [sizeIn_overflow h]
  rfl

theorem sparseIn_eq {dims : List Dimension} (h : m.Measures (shapeOf dims)) (null : k.Elem)
    (loading : Binary .double) : sparseIn m k dims null loading = sparse k dims null loading := by
  unfold sparseIn
  rw [measured_eq h]
  rfl

theorem raggedIn_eq {items : Nested k.Elem} (hshape : items.shape = .ok shape)
    (h : m.Measures shape) : raggedIn m k items = ragged k items := by
  unfold raggedIn ragged
  rw [hshape]
  exact measured_eq h _

theorem raggedIn_overflow {items : Nested k.Elem} (hshape : items.shape = .ok shape)
    (h : ¬Measured shape) : raggedIn .checked k items = throw (.misuse .overflow) := by
  unfold raggedIn
  rw [hshape]
  exact measured_overflow h _

theorem createFileIn_eq (h : m.Measures shape) (k : Kind) (name : String) :
    createFileIn m k name shape = createFile k name shape := measured_eq h _

theorem openFileIn_eq (h : m.Measures shape) (k : Kind) (name : String) (writable : Bool) :
    openFileIn m k name shape writable = openFile k name shape writable := measured_eq h _

theorem createFileIn_overflow (h : ¬Measured shape) (k : Kind) (name : String) :
    createFileIn .checked k name shape = throw (.misuse .overflow) := measured_overflow h _

theorem openFileIn_overflow (h : ¬Measured shape) (k : Kind) (name : String) (writable : Bool) :
    openFileIn .checked k name shape writable = throw (.misuse .overflow) := measured_overflow h _

/-! ## Whole cubes -/

section
variable (hc : c.Fits) (hcm : ∀ v ∈ c.stacked, m = .unbounded ∨ v.Small)
include hc hcm

theorem toDenseIn_eq (hsize : m.Measures c.shape) : toDenseIn m c = toDense c := by
  unfold toDenseIn toDense
  rw [measured_eq hsize, hc.elementsIn_eq hcm]
  rfl

theorem toDocumentIn_eq : toDocumentIn m c = toDocument c := by
  unfold toDocumentIn toDocument
  rw [hc.elementsIn_eq hcm]

variable (hd : d.Fits) (hdm : ∀ v ∈ d.stacked, m = .unbounded ∨ v.Small)
include hd hdm

theorem copyFromIn_eq : copyFromIn m c d = copyFrom c d := by
  unfold copyFromIn copyFrom
  rw [hc.elementsIn_eq hcm, hd.elementsIn_eq hdm]

theorem sameContentIn_eq : sameContentIn m c d = sameContent c d := by
  unfold sameContentIn sameContent
  rw [hc.elementsIn_eq hcm, hd.elementsIn_eq hdm]

end

/-- A mask that is read from a cube is read and applied as it is described, in numbers without a bound. -/
theorem maskByIn_unbounded (hc : c.Fits) (hmarks : marks.Fits) :
    maskByIn .unbounded c marks = maskBy c marks := by
  have htruths : truthsIn .unbounded marks = truths marks := by
    unfold truthsIn truths
    rw [hmarks.elementsIn_eq fun _ _ => .inl rfl]
  unfold maskByIn maskBy
  rw [htruths]
  refine bind_congr fun bs => congrArg derive (funext fun serial => ?_)
  exact (hc.makes_maskIn (BitSet.Source.represents (.ofBools bs)).canonical serial).agree.unbounded

end Session

end Orthotope
