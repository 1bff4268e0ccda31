/-!
# Walks

`walk` splits a request for consecutive positions into spans, each as long as a given reach allows.
Chunked storage, staging buffers and views all move elements along such a walk, each with a reach of
its own. Whatever the reach, the spans are not empty (`length_pos_of_mem_walk`) and visit each position
of the request once and in order (`positions_walk`). So they are together as long as the request
(`total_walk`), and none goes beyond it (`le_of_mem_walk`).
-/

namespace Orthotope

/-- The `length` consecutive positions from `start` on. -/
structure Span where
  start : Nat
  length : Nat
  deriving DecidableEq, Repr

/-- The number of positions that a walk takes in one go: what `reach` allows, but at least one and at
most all that are left. -/
def stride (reach : Nat → Nat → Nat) (pos left : Nat) : Nat :=
  max 1 (min (reach pos left) left)

theorem one_le_stride (reach : Nat → Nat → Nat) (pos left : Nat) : 1 ≤ stride reach pos left :=
  Nat.le_max_left ..

theorem stride_le {reach : Nat → Nat → Nat} {pos left : Nat} (h : left ≠ 0) :
    stride reach pos left ≤ left := by
  unfold stride; omega

/-- Splits `left` positions from `pos` on into spans. `reach p n` is how far a span that starts at `p`
may go when `n` positions are left. -/
def walk (reach : Nat → Nat → Nat) (pos left : Nat) : List Span :=
  if left = 0 then []
  else ⟨pos, stride reach pos left⟩ ::
    walk reach (pos + stride reach pos left) (left - stride reach pos left)
termination_by left
decreasing_by
  have := one_le_stride reach pos left
  omega

@[simp]
theorem walk_zero (reach : Nat → Nat → Nat) (pos : Nat) : walk reach pos 0 = [] := by
  rw [walk]; rfl

theorem walk_of_ne_zero {reach : Nat → Nat → Nat} {pos left : Nat} (h : left ≠ 0) :
    walk reach pos left = ⟨pos, stride reach pos left⟩ ::
      walk reach (pos + stride reach pos left) (left - stride reach pos left) := by
  rw [walk, if_neg h]

/-- A walk visits the positions of the request, each once and in order. -/
theorem positions_walk (reach : Nat → Nat → Nat) (pos left : Nat) :
    (walk reach pos left).flatMap (fun s => List.range' s.start s.length) = List.range' pos left := by
  fun_induction walk reach pos left with
  | case1 pos => rfl
  | case2 pos left h ih =>
    have hstride : stride reach pos left ≤ left := stride_le h
    rw [List.flatMap_cons, ih, List.range'_append_1, Nat.add_sub_cancel' hstride]

/-- No span of a walk is empty. -/
theorem length_pos_of_mem_walk {reach : Nat → Nat → Nat} {pos left : Nat} {s : Span}
    (h : s ∈ walk reach pos left) : 0 < s.length := by
  fun_induction walk reach pos left with
  | case1 => simp at h
  | case2 pos left _ ih =>
    rcases List.mem_cons.1 h with rfl | h
    · exact one_le_stride reach pos left
    · exact ih h

/-- The number of positions in spans. -/
def Span.total : List Span → Nat
  | [] => 0
  | s :: rest => s.length + total rest

/-- The spans of a walk are together as long as the request. -/
theorem total_walk (reach : Nat → Nat → Nat) (pos left : Nat) :
    Span.total (walk reach pos left) = left := by
  fun_induction walk reach pos left with
  | case1 => rfl
  | case2 pos left hleft ih =>
    have hstride : stride reach pos left ≤ left := stride_le hleft
    rw [Span.total, ih, Nat.add_sub_cancel' hstride]

/-- No span of a walk goes beyond the request. -/
theorem le_of_mem_walk {reach : Nat → Nat → Nat} {pos left : Nat} {s : Span}
    (h : s ∈ walk reach pos left) : s.start + s.length ≤ pos + left := by
  fun_induction walk reach pos left with
  | case1 => simp at h
  | case2 pos left hleft ih =>
    have hstride : stride reach pos left ≤ left := stride_le hleft
    rcases List.mem_cons.1 h with rfl | h
    · exact Nat.add_le_add_left hstride pos
    · have := ih h
      omega

/-- The number of elements that pass through a staging buffer at a time. -/
def blockLength : Nat := 1024

/-- Splits `count` positions from `pos` on into blocks of the staging buffer's length. -/
def blocks (pos count : Nat) : List Span :=
  walk (fun _ _ => blockLength) pos count

end Orthotope
