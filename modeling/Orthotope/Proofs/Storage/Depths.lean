import Orthotope.Proofs.Storage.Paths

/-!
# The depth of nested lists

Nested lists admit a depth if all of their lists can be read as nested so many levels deep
(`Nested.Admits`): elements stand one level deep, the lists in a list one level further in, and an
empty list of lists fits any depth.

`Nested.depth` works with what is known so far: an exact depth, a lower bound or a contradiction. It
keeps the two apart in a loop over the lists, which comes to a fold with `Depth.meet`
(`Nested.depth_lists`). What is known describes a set of depths (`Depth.Describes`). The step is that two lists at one level describe
the depths that both admit (`Depth.Describes.meet`), and by induction on the lists the whole describes
the depths that it admits (`Nested.describes_depth`). No two answers describe the same depths
(`Depth.Describes.unique`), so that the depths decide the answer as well.
-/

namespace Orthotope

namespace Depth

/-- A number of levels agrees with what is known. -/
def Allows : Depth → Nat → Prop
  | exactly m, n => n = m
  | atLeast m, n => m ≤ n

@[simp] theorem exactly_allows {m n : Nat} : (exactly m).Allows n ↔ n = m := Iff.rfl

@[simp] theorem atLeast_allows {m n : Nat} : (atLeast m).Allows n ↔ m ≤ n := Iff.rfl

@[simp] theorem succ_allows_zero (d : Depth) : ¬ d.succ.Allows 0 := by
  cases d <;> simp [succ]

@[simp] theorem succ_allows_succ {d : Depth} {n : Nat} : d.succ.Allows (n + 1) ↔ d.Allows n := by
  cases d <;> simp [succ]

theorem allows_levels (d : Depth) : d.Allows d.levels := by
  cases d <;> simp [levels]

theorem levels_le {d : Depth} {n : Nat} (h : d.Allows n) : d.levels ≤ n := by
  cases d with
  | exactly m => exact Nat.le_of_eq h.symm
  | atLeast m => exact h

/-- What is known, as far as it does not contradict itself, is determined by the levels it allows. -/
theorem eq_of_allows {a b : Depth} (h : ∀ n, a.Allows n ↔ b.Allows n) : a = b := by
  have hlevels : a.levels = b.levels :=
    Nat.le_antisymm (levels_le ((h _).2 b.allows_levels)) (levels_le ((h _).1 a.allows_levels))
  -- The next number tells an exact depth from a bound.
  have hnext := h (a.levels + 1)
  cases a <;> cases b <;> simp only [levels, exactly_allows, atLeast_allows] at hlevels hnext <;>
    first
      | exact congrArg _ hlevels
      | omega

/-- An answer describes a set of depths: they are those it allows, or there are none and the answer is
that the depth is uneven. -/
def Describes : Except Error Depth → (Nat → Prop) → Prop
  | .ok d, admits => ∀ n, admits n ↔ d.Allows n
  | .error e, admits => e = .unevenDepth ∧ ∀ n, ¬ admits n

namespace Describes

variable {p q : Nat → Prop}

/-- An answer that depends on whether two lists contradict each other. -/
theorem ite {c : Prop} [Decidable c] {d : Depth} (hok : c → ∀ n, p n ↔ d.Allows n)
    (herr : ∀ n, p n → c) : Describes (if c then .ok d else .error .unevenDepth) p := by
  split
  · next hc => exact hok hc
  · next hc => exact ⟨rfl, fun n hn => hc (herr n hn)⟩

/-- Two lists at one level describe the depths that both of them admit. -/
theorem meet {a b : Depth} (ha : Describes (.ok a) p) (hb : Describes (.ok b) q) :
    Describes (a.meet b) fun n => p n ∧ q n := by
  obtain rfl : p = a.Allows := funext fun n => propext (ha n)
  obtain rfl : q = b.Allows := funext fun n => propext (hb n)
  cases a with
  | exactly m =>
    cases b with
    | exactly n => exact ite (by rintro rfl k; simp) (by rintro k ⟨rfl, h⟩; exact h)
    | atLeast n =>
      refine ite (fun hle k => ?_) (by rintro k ⟨rfl, h⟩; exact h)
      simp only [exactly_allows, atLeast_allows]
      omega
  | atLeast m =>
    cases b with
    | exactly n =>
      refine ite (fun hle k => ?_) (by rintro k ⟨h, rfl⟩; exact h)
      simp only [exactly_allows, atLeast_allows]
      omega
    | atLeast n => exact fun k => Nat.max_le.symm

/-- A contradiction in a list is one in the whole, and what the list describes is passed on. -/
theorem bind {r : Except Error Depth} {next : Depth → Except Error Depth} (hr : Describes r p)
    (herr : ∀ n, q n → p n) (hok : ∀ d, Describes (.ok d) p → Describes (next d) q) :
    Describes (r >>= next) q := by
  cases r with
  | ok d => exact hok d hr
  | error e => exact ⟨hr.1, fun n hn => hr.2 n (herr n hn)⟩

/-- A list is one level deeper than what it holds, and at least one level deep. -/
theorem succ {r : Except Error Depth} (h : Describes r p) (hzero : ¬ q 0)
    (hsucc : ∀ n, q (n + 1) ↔ p n) : Describes (do return (← r).succ) q := by
  cases r with
  | ok d =>
    intro n
    cases n with
    | zero => exact iff_of_false hzero d.succ_allows_zero
    | succ n => rw [hsucc, h n, succ_allows_succ]
  | error e =>
    refine ⟨h.1, fun n hn => ?_⟩
    cases n with
    | zero => exact hzero hn
    | succ n => exact h.2 n ((hsucc n).1 hn)

/-- The depths decide the answer. -/
theorem unique {r r' : Except Error Depth} (h : Describes r p) (h' : Describes r' p) : r = r' := by
  cases r with
  | ok d =>
    cases r' with
    | ok d' => exact congrArg _ (eq_of_allows fun n => (h n).symm.trans (h' n))
    | error e => exact absurd ((h _).2 d.allows_levels) (h'.2 _)
  | error e =>
    cases r' with
    | ok d => exact absurd ((h' _).2 d.allows_levels) (h.2 _)
    | error e' => rw [h.1, h'.1]

end Describes

end Depth

namespace Nested

variable {α : Type}

/-- Nested lists admit a depth: innermost lists are one level deep, and all lists of a list admit one
level less than it. An empty list of lists admits any depth from one on. -/
inductive Admits : Nested α → Nat → Prop
  | values (xs : List α) : Admits (values xs) 1
  | empty {d : Nat} (h : 1 ≤ d) : Admits (lists []) d
  | lists {ts : List (Nested α)} {d : Nat} (hd : 1 ≤ d) (h : ∀ t ∈ ts, Admits t d) :
    Admits (lists ts) (d + 1)

theorem Admits.pos {t : Nested α} {d : Nat} (h : t.Admits d) : 1 ≤ d := by
  cases h with
  | values => exact Nat.le_refl 1
  | empty h => exact h
  | lists => omega

theorem admits_values_iff {xs : List α} {d : Nat} : (values xs).Admits d ↔ d = 1 := by
  constructor
  · intro h
    cases h
    rfl
  · rintro rfl
    exact .values xs

/-- A list of lists admits one level more than all of its lists, whether there are any or not. -/
theorem admits_lists_succ_iff {ts : List (Nested α)} {d : Nat} :
    (lists ts).Admits (d + 1) ↔ ∀ t ∈ ts, t.Admits d := by
  constructor
  · intro h
    cases h with
    | empty => exact fun t ht => absurd ht List.not_mem_nil
    | lists _ h => exact h
  · intro h
    cases ts with
    | nil => exact .empty (by omega)
    | cons t ts => exact .lists (h t List.mem_cons_self).pos h

/-- The answer for some lists describes the depths that all of them admit. -/
theorem describes_depthAll {ts : List (Nested α)}
    (h : ∀ t ∈ ts, Depth.Describes t.depth t.Admits) :
    Depth.Describes (depthAll ts) fun d => ∀ t ∈ ts, t.Admits d := by
  induction ts with
  | nil => exact fun d => by simp
  | cons t ts ih =>
    obtain ⟨ht, hts⟩ := List.forall_mem_cons.1 h
    simp only [List.forall_mem_cons]
    refine ht.bind (fun _ hd => hd.1) fun first hfirst => ?_
    exact (ih hts).bind (fun _ hd => hd.2) fun others hothers => hfirst.meet hothers

/-- The answer for nested lists describes the depths that they admit. -/
theorem describes_depth (t : Nested α) : Depth.Describes t.depth t.Admits := by
  induction t using induct with
  | values xs => exact fun d => admits_values_iff
  | lists ts ih =>
    rw [depth_lists]
    exact (describes_depthAll ih).succ (fun h => absurd h.pos (by omega)) fun _ => admits_lists_succ_iff

/-- The depth tells exactly which depths nested lists admit, and they tell the depth: it is exact just
if no other is admitted, a lower bound just if all from it on are, and refused just if there is none. -/
theorem depth_decides (t : Nested α) :
    (∀ d, t.depth = .ok (.exactly d) ↔ ∀ d', t.Admits d' ↔ d' = d) ∧
    (∀ d, t.depth = .ok (.atLeast d) ↔ ∀ d', t.Admits d' ↔ d ≤ d') ∧
    ∀ e, t.depth = .error e ↔ e = .unevenDepth ∧ ∀ d, ¬ t.Admits d := by
  have hiff : ∀ r, t.depth = r ↔ Depth.Describes r t.Admits := fun r =>
    ⟨fun h => h ▸ t.describes_depth, fun h => t.describes_depth.unique h⟩
  exact ⟨fun d => hiff _, fun d => hiff _, fun e => hiff _⟩

/-- Nested lists have a shape just if they admit a depth, and it has an axis for each level of the
least one. -/
theorem shape_of_admits (t : Nested α) :
    ((∃ shape, t.shape = .ok shape) ↔ ∃ d, t.Admits d) ∧
    ∀ shape, t.shape = .ok shape →
      t.Admits shape.length ∧ ∀ d, t.Admits d → shape.length ≤ d := by
  have hdepth := t.describes_depth
  rw [Nested.shape]
  cases ht : t.depth with
  | error e =>
    rw [ht] at hdepth
    refine ⟨⟨fun ⟨_, h⟩ => (by cases h), fun ⟨d, hd⟩ => absurd hd (hdepth.2 d)⟩, fun _ h => (by cases h)⟩
  | ok depth =>
    rw [ht] at hdepth
    have hlen := (levels_of_depth ht).1
    refine ⟨iff_of_true ⟨_, rfl⟩ ⟨_, (hdepth _).2 depth.allows_levels⟩, ?_⟩
    rintro shape ⟨⟩
    rw [hlen]
    exact ⟨(hdepth _).2 depth.allows_levels, fun d hd => Depth.levels_le ((hdepth d).1 hd)⟩

end Nested

end Orthotope
