import Orthotope.Proofs.Channel.Faithful
import Orthotope.Proofs.Cube.Origin

/-!
# Writing through views

A `Writing` is one of the ways to write to a cube: at coordinates, at a position, from a position on
or everywhere. Each puts elements to positions that follow each other (`Writing.start`,
`Writing.items`).

Over a faithful base, what a cube shows is what the base holds at the origins of its positions
(`Cube.Fits.shows`), and a writing in range puts the elements to the origins and to nothing else
(`Cube.Fits.run_scatter`), whatever runs the views cut it into. A writing that succeeds is in range
(`Cube.inRange_of_run`).
-/

namespace Orthotope

variable {σ α : Type}

/-- A way to write to a cube. -/
inductive Writing (α : Type) where
  /-- One element, by its coordinates. -/
  | set (coords : List Nat) (x : α)
  /-- One element, by its position. -/
  | setAt (pos : Nat) (x : α)
  /-- Many elements, from a position on. -/
  | write (pos : Nat) (xs : List α)
  /-- One element everywhere. -/
  | fill (x : α)

namespace Writing

/-- Writes to the elements of a cube of the given shape. -/
def run (shape : List Nat) (c : Channel σ α) : Writing α → Act σ Unit
  | set coords x => do
    let pos ← Act.ofExcept (offset? shape coords)
    c.set pos x
  | setAt pos x => c.set pos x
  | write pos xs => c.write pos xs
  | fill x => c.fill x

/-- The first position that is written. -/
def start (shape : List Nat) : Writing α → Nat
  | set coords _ => offset shape coords
  | setAt pos _ => pos
  | write pos _ => pos
  | fill _ => 0

/-- The elements that are written to the positions from the first on. -/
def items (shape : List Nat) : Writing α → List α
  | set _ x => [x]
  | setAt _ x => [x]
  | write _ xs => xs
  | fill x => List.replicate (sizeOf shape) x

/-- The shape has all positions that are to be written. -/
def InRange (shape : List Nat) : Writing α → Prop
  | set coords _ => Within shape coords
  | setAt pos _ => pos < sizeOf shape
  | write pos xs => pos + xs.length ≤ sizeOf shape
  | fill _ => True

theorem InRange.le {shape : List Nat} {op : Writing α} (h : op.InRange shape) :
    op.start shape + (op.items shape).length ≤ sizeOf shape := by
  cases op with
  | set => exact offset_lt h
  | setAt | write => exact h
  | fill =>
    rw [items, List.length_replicate]
    exact Nat.le_of_eq (Nat.zero_add _)

end Writing

namespace Cube

variable {k : Kind} {c : Cube k} {slots : (k : Kind) → Nat → List Nat → Access σ k.Elem}
  {R : σ → σ → Prop} {holds : σ → (Nat → k.Elem) → Prop} {s s' : σ} {f : Nat → k.Elem}

/-- The channel under all views of a cube. -/
abbrev floor (c : Cube k) (slots : (k : Kind) → Nat → List Nat → Access σ k.Elem) :
    Channel σ k.Elem := (c.base.access slots).raw

/-- The size of a cube is that of its channel, if this is so of the base. -/
theorem size_raw (hsize : (c.floor slots).size = c.base.size) :
    (c.access slots).raw.size = c.size := by
  cases c with
  | leaf | cast => exact hsize
  | view => rfl

/-- Views that fit are steady over a steady base. -/
theorem Fits.steady (h : c.Fits) (hsize : (c.floor slots).size = c.base.size)
    (hfloor : (c.floor slots).Steady R) : (c.access slots).raw.Steady R := by
  induction c with
  | leaf | cast => exact hfloor
  | view serial inner dims transform ih =>
    have hinner := ih h.1 hsize hfloor
    exact (hinner.uniform.through h.2 (size_raw hsize)).steady

section
variable (h : c.Fits) (hsize : (c.floor slots).size = c.base.size)
  (hfloor : (c.floor slots).Faithful holds)
include h hsize hfloor

/-- A cube shows what its base holds at the origins of its positions. -/
theorem Fits.shows (hs : holds s f) : (c.access slots).raw.Shows s fun p => f (c.origin p) := by
  refine (h.steady hsize hfloor.steady).shows hs fun {p} hp => ?_
  rw [size_raw hsize] at hp
  rw [(sameAt_origin slots h hp).get, (hfloor.serves hs).get]
  rw [hsize]
  exact h.origin_lt hp

/-- Single writes put the elements to the origins of the positions. -/
theorem Fits.writeEach_scatter (hs : holds s f) {p : Nat} {xs : List k.Elem}
    (hle : p + xs.length ≤ c.size) :
    ∃ s', ((c.access slots).raw.writeEach p xs).outcome s = (.ok (), s') ∧
      holds s' (scatter (fun i => c.origin (p + i)) f xs) := by
  refine hfloor.writeEach_scatter hs fun i hi => ?_
  have hp : p + i < c.size := by omega
  refine ⟨funext (sameAt_origin slots h hp).set, ?_⟩
  rw [hsize]
  exact h.origin_lt hp

/-- What does as single writes puts the elements to the origins too. -/
theorem Fits.scatter_of_alike {a : Act σ Unit} {p : Nat} {xs : List k.Elem} (hs : holds s f)
    (hle : p + xs.length ≤ c.size)
    (ha : Act.Alike (Channel.HoldSame holds) a ((c.access slots).raw.writeEach p xs)) :
    ∃ s', a.outcome s = (.ok (), s') ∧ holds s' (scatter (fun i => c.origin (p + i)) f xs) := by
  obtain ⟨t, hrun, hheld⟩ := h.writeEach_scatter hsize hfloor hs hle
  obtain ⟨hvalue, hstate⟩ := ha s s ⟨f, hs, hs⟩
  rw [hrun] at hvalue hstate
  exact ⟨(a.outcome s).2, Prod.ext hvalue rfl, hfloor.holds_of_holdSame hstate hheld⟩

/-- A writing in range succeeds, and puts its elements to the origins of the positions written. -/
theorem Fits.run_scatter (hs : holds s f) {op : Writing k.Elem} (hop : op.InRange c.shape) :
    ∃ s', (op.run c.shape (c.access slots).raw).outcome s = (.ok (), s') ∧
      holds s' (scatter (fun i => c.origin (op.start c.shape + i)) f (op.items c.shape)) := by
  have hle : op.start c.shape + (op.items c.shape).length ≤ c.size := hop.le
  have hsteady := h.steady hsize hfloor.steady
  cases op with
  | set coords x =>
    have hcoords : offset? c.shape coords = .ok (offset c.shape coords) :=
      offset?_eq_ok_iff.2 ⟨hop, rfl⟩
    have hone := h.writeEach_scatter hsize hfloor hs hle
    rw [Writing.items, Channel.writeEach_singleton] at hone
    rw [Writing.run, hcoords]
    exact hone
  | setAt pos x =>
    have hone := h.writeEach_scatter hsize hfloor hs hle
    rw [Writing.items, Channel.writeEach_singleton] at hone
    exact hone
  | write pos xs =>
    exact h.scatter_of_alike hsize hfloor hs hle (hsteady.write (size_raw hsize ▸ hle))
  | fill x =>
    have hfill := hsteady.uniform.alike_fill x
    rw [size_raw hsize] at hfill
    exact h.scatter_of_alike hsize hfloor hs hle hfill

end

end Cube

end Orthotope
