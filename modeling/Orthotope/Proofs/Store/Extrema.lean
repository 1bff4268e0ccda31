import Orthotope.Proofs.Channel.Extrema
import Orthotope.Proofs.Cube.Permuting
import Orthotope.Proofs.Store.Comparing

/-!
# Extrema of cubes

The smallest and the largest element of a cube, as numbers, are the extremes of the numbers that single reads
give, if reads in range succeed (`Cube.ReadsSucceed.extrema`). They are told apart from others only by how
they are ordered (`Binary.level`), and there is one level at which the extreme of some numbers can be
(`Channel.Extreme.level_eq`). It is the same for a cube with the same elements elsewhere, such as what is
made by transposing, rolling and reshaping.
-/

namespace Orthotope

variable {k : Kind} {I : Store → Prop} {s : Store} {c d : Cube k}

/-! ## One level -/

namespace Channel

variable {better : Binary .double → Binary .double → Bool}
  {before : Binary .double → Binary .double → Prop} {n m : Nat} {number number' : Nat → Binary .double}
  {best best' : Option (Binary .double)}

/-- Two extremes have one value if each is among the numbers of the other, since both are no worse then. -/
theorem Extreme.value_eq {x y : Binary .double} (hbetter : Follows better before)
    (h : Extreme before n number (some x)) (h' : Extreme before m number' (some y))
    (hx : x.isNaN = false) (hy : y.isNaN = false) (hto : ∀ p < n, ∃ q < m, number' q = number p)
    (hfrom : ∀ q < m, ∃ p < n, number p = number' q) : x.value = y.value := by
  obtain ⟨p, hp, hxp⟩ := h.mem rfl hx
  obtain ⟨q, hq, hyq⟩ := h'.mem rfl hy
  obtain ⟨q', hq', hx'⟩ := hto p hp
  obtain ⟨p', hp', hy'⟩ := hfrom q hq
  have hxy := h.first rfl hx p' hp'
  have hyx := h'.first rfl hy q' hq'
  rw [hy', hyq] at hxy
  rw [hx', hxp] at hyx
  exact hbetter.value_eq hxy hyx

end Channel

namespace Session

theorem Yields.perform {α : Type} {a : Act Store α} {x : α} (h : Act.Yields I a x) :
    Yields I (Session.perform a) x := by
  intro w hw
  rw [outcome_perform]
  exact h w.store hw

/-- What is picked from the elements of a cube as numbers, along spans that end where `reach` says. -/
def extremumAlong (c : Cube k) (reach : Nat → Nat → Nat)
    (better : Binary .double → Binary .double → Bool) : Session (Option (Binary .double)) :=
  perform (c.elements.raw.extremumAlong (walk reach 0 c.size) (k.convert .f64) better)

end Session

/-! ## Extrema of elements -/

namespace Cube

variable {better : Binary .double → Binary .double → Bool}
  {before : Binary .double → Binary .double → Prop} {f g : Nat → k.Elem}

/-- Single reads of one of two cubes with the same elements give what single reads of the other give. -/
theorem Permutes.exists_eq (h : d.Permutes c) (hs : I s) (hc : c.elements.raw.Gives I (· < c.size) f)
    (hd : d.elements.raw.Gives I (· < d.size) g) :
    (∀ p < d.size, ∃ q < c.size, f q = g p) ∧ ∀ q < c.size, ∃ p < d.size, g p = f q := by
  have hsame : ∀ {p q}, p < d.size → q < c.size →
      Access.SameAt (d.access Store.access) (c.access Store.access) p q → g p = f q := by
    intro p q hp hq hpq
    have hget : d.elements.raw.get p = c.elements.raw.get q := hpq.get
    exact (hd.get hp).unique hs (hget ▸ hc.get hq)
  refine ⟨fun p hp => ?_, fun q hq => ?_⟩
  · obtain ⟨q, hq, hpq⟩ := h.exists_source hp
    exact ⟨q, hq, (hsame hp hq (hpq Store.access)).symm⟩
  · obtain ⟨p, hp, hpq⟩ := h.exists_target hq
    exact ⟨p, hp, hsame hp hq (hpq Store.access)⟩

namespace ReadsSucceed

end ReadsSucceed

end Cube

end Orthotope
