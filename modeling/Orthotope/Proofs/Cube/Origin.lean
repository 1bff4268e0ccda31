import Orthotope.Cube.Derive
import Orthotope.Proofs.Channel.Layers

/-!
# What a cube refers to

The cube under all views of a cube is its `Cube.base`, and `Cube.origin` is the position there that a
position of the cube refers to. `Access.SameAt` says that two accesses reach the same element, and
`Cube.sameAt_origin` that a cube reaches at a position what its base reaches at the origin.

That holds of cubes all of whose views fit (`Cube.Fits`). There the origin of a position below the
size is below the size of the base (`Cube.Fits.origin_lt`), and no two positions have one origin
(`Cube.Fits.origin_injective`).

`Cube.Presents` compares a cube with another over the same base: each of its coordinates refers to
what the other refers to at some coordinates. It is what an operation is meant to achieve, whether it
puts a new view on a cube (`Cube.Presents.view`) or starts from the cube beneath
(`Cube.Presents.factor`).
-/

namespace Orthotope

namespace View

variable {v : View} {cs : List Nat}

/-- The coordinates beneath that the coordinates of a view show, also if the transform works on flat
positions. -/
def shown (v : View) (cs : List Nat) : List Nat :=
  unravel v.source (v.position (offset v.shape cs))

theorem Fits.within_shown (h : v.Fits) (hc : Within v.shape cs) : Within v.source (v.shown cs) :=
  within_unravel (Nat.zero_lt_of_lt (h.position_lt (offset_lt hc)))

theorem Fits.offset_shown (h : v.Fits) (hc : Within v.shape cs) :
    offset v.source (v.shown cs) = v.position (offset v.shape cs) :=
  offset_unravel (h.position_lt (offset_lt hc))

theorem Fits.shown_of_not_flat (h : v.Fits) (hflat : v.transform.flat = false)
    (hc : Within v.shape cs) : v.shown cs = v.coords cs := by
  rw [shown, position_offset hflat hc, unravel_offset (h.within_coords hflat hc)]

end View

/-- At `p`, an access reaches the element that another one reaches at `q`. -/
structure Access.SameAt {σ α : Type} (a b : Access σ α) (p q : Nat) : Prop where
  get : a.raw.get p = b.raw.get q
  set : ∀ x, a.raw.set p x = b.raw.set q x
  getNull : a.nullable.get p = b.nullable.get q
  setNull : ∀ x, a.nullable.set p x = b.nullable.set q x

namespace Access

variable {σ α : Type} {a b c : Access σ α} {p q r : Nat}

theorem SameAt.refl (a : Access σ α) (p : Nat) : SameAt a a p p := ⟨rfl, fun _ => rfl, rfl, fun _ => rfl⟩

theorem SameAt.trans (h : SameAt a b p q) (h' : SameAt b c q r) : SameAt a c p r where
  get := h.get.trans h'.get
  set x := (h.set x).trans (h'.set x)
  getNull := h.getNull.trans h'.getNull
  setNull x := (h.setNull x).trans (h'.setNull x)

theorem sameAt_through (a : Access σ α) {v : View} (hp : p < v.size) :
    SameAt (a.through v) a p (v.position p) where
  get := a.raw.get_through hp
  set := a.raw.set_through hp
  getNull := a.nullable.get_through hp
  setNull := a.nullable.set_through hp

end Access

namespace Cube

variable {k : Kind}

/-- Every view in a cube fits. -/
def Fits : {k : Kind} → Cube k → Prop
  | _, leaf .. => True
  | _, view _ inner dims transform => inner.Fits ∧ (inner.viewOver dims transform).Fits
  | _, cast _ inner _ => inner.Fits

/-- The cube under all views of a cube. -/
def base : {k : Kind} → Cube k → Cube k
  | _, view _ inner _ _ => inner.base
  | _, c => c

/-- The position of the base that a position of a cube refers to. -/
def origin : {k : Kind} → Cube k → Nat → Nat
  | _, view _ inner dims transform, p => inner.origin ((inner.viewOver dims transform).position p)
  | _, _, p => p

variable {c : Cube k}

/-- A position below the size refers to one below the size of the base. -/
theorem Fits.origin_lt {p : Nat} (h : c.Fits) (hp : p < c.size) : c.origin p < c.base.size := by
  induction c generalizing p with
  | leaf => exact hp
  | view serial inner dims transform ih => exact ih h.1 (h.2.position_lt hp)
  | cast => exact hp

/-- No two positions below the size refer to the same position. -/
theorem Fits.origin_injective {p q : Nat} (h : c.Fits) (hp : p < c.size) (hq : q < c.size)
    (heq : c.origin p = c.origin q) : p = q := by
  induction c generalizing p q with
  | leaf => exact heq
  | view serial inner dims transform ih =>
    refine h.2.position_injective hp hq ?_
    exact ih h.1 (h.2.position_lt hp) (h.2.position_lt hq) heq
  | cast => exact heq

/-- A cube reaches at a position what its base reaches at the origin of the position. -/
theorem sameAt_origin {σ : Type} (slots : (k : Kind) → Nat → List Nat → Access σ k.Elem) {p : Nat}
    (h : c.Fits) (hp : p < c.size) :
    Access.SameAt (c.access slots) (c.base.access slots) p (c.origin p) := by
  induction c generalizing p with
  | leaf | cast => exact Access.SameAt.refl _ p
  | view serial inner dims transform ih =>
    exact (Access.sameAt_through _ hp).trans (ih h.1 (h.2.position_lt hp))

/-! ## One cube through another -/

/-- Over the same base, `d` has the given shape and refers at coordinates of it to what `c` refers to
at the image of the coordinates under `place`. -/
structure Presents (d c : Cube k) (shape : List Nat) (place : List Nat → List Nat) : Prop where
  fits : d.Fits
  base : d.base = c.base
  shape_eq : d.shape = shape
  within : ∀ {cs}, Within shape cs → Within c.shape (place cs)
  origin : ∀ {cs}, Within shape cs →
    d.origin (offset shape cs) = c.origin (offset c.shape (place cs))

namespace Presents

variable {b d inner : Cube k} {shape shape' : List Nat} {place place' : List Nat → List Nat}
  {serial : Nat} {dims : List Dimension} {transform : Transform}

theorem refl (h : c.Fits) : Presents c c c.shape id := ⟨h, rfl, rfl, id, fun _ => rfl⟩

/-- Only the coordinates in the shape matter. -/
theorem congr (h : Presents d c shape place)
    (hplace : ∀ cs, Within shape cs → place cs = place' cs) : Presents d c shape place' where
  fits := h.fits
  base := h.base
  shape_eq := h.shape_eq
  within {cs} hc := hplace cs hc ▸ h.within hc
  origin {cs} hc := hplace cs hc ▸ h.origin hc

/-- A cube presents itself if nothing is moved. -/
theorem same (h : c.Fits) (hplace : ∀ cs, Within c.shape cs → cs = place cs) :
    Presents c c c.shape place := (refl h).congr hplace

theorem trans (h : Presents d c shape place) (h' : Presents c b shape' place') :
    Presents d b shape (place' ∘ place) where
  fits := h.fits
  base := h.base.trans h'.base
  shape_eq := h.shape_eq
  within hc := h'.within (h'.shape_eq ▸ h.within hc)
  origin hc := by
    have hc' := h.within hc
    have horigin := h.origin hc
    rw [h'.shape_eq] at hc' horigin
    rw [horigin, h'.origin hc']
    rfl

/-- A view presents the cube beneath as its transform says. -/
theorem view (serial : Nat) (h : c.Fits) (hfit : (c.viewOver dims transform).Fits) :
    Presents (view serial c dims transform) c (shapeOf dims) (c.viewOver dims transform).shown where
  fits := ⟨h, hfit⟩
  base := rfl
  shape_eq := rfl
  within hc := hfit.within_shown hc
  origin hc := congrArg c.origin (hfit.offset_shown hc).symm

/-- A new view presents the cube beneath by any function that agrees with its transform. -/
theorem fresh (h : c.Fits) (hfit : (c.viewOver dims transform).Fits)
    (hplace : ∀ cs, Within (shapeOf dims) cs → (c.viewOver dims transform).shown cs = place cs) :
    Presents (Cube.view serial c dims transform) c (shapeOf dims) place :=
  (view serial h hfit).congr hplace

/-- A cube that presents the cube beneath a view also presents the view, if what it shows factors
through the view. -/
theorem factor (h : (Cube.view serial inner dims transform).Fits)
    (hd : Presents d inner shape place')
    (hwithin : ∀ cs, Within shape cs → Within (shapeOf dims) (place cs))
    (hplace : ∀ cs, Within shape cs →
      (inner.viewOver dims transform).shown (place cs) = place' cs) :
    Presents d (Cube.view serial inner dims transform) shape place where
  fits := hd.fits
  base := hd.base
  shape_eq := hd.shape_eq
  within {cs} hc := hwithin cs hc
  origin {cs} hc := by
    have hshown : offset inner.shape ((inner.viewOver dims transform).shown (place cs)) = _ :=
      h.2.offset_shown (hwithin cs hc)
    rw [hplace cs hc] at hshown
    rw [hd.origin hc, hshown]
    rfl

end Presents

end Cube

end Orthotope
