import Orthotope.Proofs.Effect.Alike
import Orthotope.Proofs.Machine.View

/-!
# Visiting the runs of a request

A bulk transfer finds the runs of a request one by one, and moves each before it looks for the next one.
`View.visitRuns` is that loop for any way to move a run. It knows nothing of a walk that always advances:
a run of no positions would bring it to a standstill, which is a misuse.

If the view fits, the request is in range and nothing overflows, the loop ends and visits the runs that
`View.runs` lists (`View.Fits.visitRuns_eq`). Counted from the beginning of the request (`View.visits`), these are a partition
of it (`View.flatMap_visits`) into stretches that are contiguous beneath (`View.Fits.position_of_mem_visits`).
A visit that fails is the last one: what is visited is a beginning of the list (`View.exists_visited`).
-/

namespace Orthotope

/-- No span of a walk begins before the request. -/
theorem le_start_of_mem_walk {reach : Nat → Nat → Nat} {pos left : Nat} {s : Span}
    (h : s ∈ walk reach pos left) : pos ≤ s.start := by
  fun_induction walk reach pos left with
  | case1 => cases h
  | case2 pos left _ ih =>
    rcases List.mem_cons.1 h with rfl | h
    · exact Nat.le_refl _
    · exact Nat.le_trans (Nat.le_add_right ..) (ih h)

namespace View

variable {σ : Type} {v : View} {p len : Nat}

/-- The run with its positions counted from `p` on. -/
def Run.since (p : Nat) (r : Run) : Run := ⟨r.inner, r.span.start - p, r.span.length⟩

/-- The runs of a request of `len` positions from `p` on, each with the offsets in the request that it
covers. -/
def visits (v : View) (p len : Nat) : List Run := (v.runs p len).map (Run.since p)

/-! ## The runs of a request -/

/-- The offsets that the runs of a request cover, one run after the other, are all offsets in the request
in ascending order. -/
theorem flatMap_visits (v : View) (p len : Nat) :
    (v.visits p len).flatMap (fun r => List.range' r.span.start r.span.length) = List.range len := by
  have hshift : ∀ s ∈ walk v.reach p len,
      List.range' (s.start - p) s.length = (List.range' s.start s.length).map (· - p) := fun s hs =>
    (List.map_sub_range' (le_start_of_mem_walk hs) s.length).symm
  calc (v.visits p len).flatMap (fun r => List.range' r.span.start r.span.length)
      = (walk v.reach p len).flatMap (fun s => List.range' (s.start - p) s.length) := by
        simp only [visits, runs, List.flatMap_map, Run.since]
    _ = (walk v.reach p len).flatMap (fun s => (List.range' s.start s.length).map (· - p)) :=
        List.flatMap_congr hshift
    _ = (List.range' p len).map (· - p) := by rw [← List.map_flatMap, positions_walk]
    _ = List.range len := by
        rw [List.map_sub_range' (Nat.le_refl p), Nat.sub_self, List.range_eq_range']

/-- The positions of a run are a span of the walk. -/
theorem span_mem_walk {r : Run} (hr : r ∈ v.runs p len) : r.span ∈ walk v.reach p len := by
  obtain ⟨s, hs, rfl⟩ := List.mem_map.1 hr
  exact hs

theorem length_pos_of_mem_visits {r : Run} (hr : r ∈ v.visits p len) : 0 < r.span.length := by
  obtain ⟨r₀, hr₀, rfl⟩ := List.mem_map.1 hr
  have hpos : 0 < r₀.span.length := length_pos_of_mem_walk (span_mem_walk hr₀)
  exact hpos

/-- The positions of a run are consecutive beneath. -/
theorem Fits.position_of_mem_runs (h : v.Fits) {left : Nat} {r : Run} (hr : r ∈ v.runs p left)
    (hle : p + left ≤ v.size) {i : Nat} (hi : i < r.span.length) :
    v.position (r.span.start + i) = r.inner + i := by
  induction left using Nat.strongRecOn generalizing p with
  | ind left ih =>
    by_cases hzero : left = 0
    · rw [hzero, runs_zero] at hr
      cases hr
    have hpos : 1 ≤ stride v.reach p left := one_le_stride ..
    have hstride : stride v.reach p left ≤ left := Orthotope.stride_le hzero
    rw [v.runs_of_ne_zero p hzero] at hr
    rcases List.mem_cons.1 hr with rfl | hr
    · have hi : i < stride v.reach p left := hi
      have hlt : p + i < v.size := by omega
      exact h.position_stride hlt hi
    · exact ih _ (by omega) hr (by omega)

/-- Of the offsets that a run covers, each shows the position beneath that lies as far from where the run
begins there, and all of these are positions beneath. -/
theorem Fits.position_of_mem_visits (h : v.Fits) {r : Run} (hr : r ∈ v.visits p len)
    (hle : p + len ≤ v.size) :
    r.inner + r.span.length ≤ sizeOf v.source ∧
      ∀ k, r.span.start ≤ k → k < r.span.start + r.span.length →
        v.position (p + k) = r.inner + (k - r.span.start) := by
  obtain ⟨r₀, hr₀, rfl⟩ := List.mem_map.1 hr
  have hend : r₀.inner + r₀.span.length ≤ sizeOf v.source := h.le_of_mem_runs hr₀ hle
  refine ⟨hend, fun k hk hlt => ?_⟩
  have hstart : p ≤ r₀.span.start := le_start_of_mem_walk (span_mem_walk hr₀)
  have hk : r₀.span.start - p ≤ k := hk
  have hlt : k < r₀.span.start - p + r₀.span.length := hlt
  have hplace : r₀.span.start + (k - (r₀.span.start - p)) = p + k := by omega
  rw [← hplace]
  exact h.position_of_mem_runs hr₀ hle (by omega)

/-! ## The loop -/

/-- The runs that are left after the first `done` positions of a request. -/
theorem runs_of_lt (v : View) (p : Nat) {done : Nat} (h : done < len) :
    (v.runs (p + done) (len - done)).map (Run.since p) =
      ⟨v.position (p + done), done, stride v.reach (p + done) (len - done)⟩ ::
        (v.runs (p + (done + stride v.reach (p + done) (len - done)))
          (len - (done + stride v.reach (p + done) (len - done)))).map (Run.since p) := by
  rw [v.runs_of_ne_zero (p + done) (by omega), List.map_cons, Run.since, Nat.add_sub_cancel_left,
    Nat.add_assoc, Nat.sub_add_eq]

theorem runs_of_ge (v : View) (p : Nat) {done : Nat} (h : ¬done < len) :
    (v.runs (p + done) (len - done)).map (Run.since p) = [] := by
  rw [Nat.sub_eq_zero_of_le (Nat.le_of_not_lt h), runs_zero]
  rfl

/-- In range, the loop ends, and what it visits is listed beforehand. -/
theorem Fits.visitRuns_eq (h : v.Fits) {m : Arithmetic} (hm : m = .unbounded ∨ v.Small)
    (hle : p + len ≤ v.size) (visit : Run → Act σ Unit) (done : Nat) :
    v.visitRuns m v.size p len visit done =
      ((v.runs (p + done) (len - done)).map (Run.since p)).forM visit := by
  induction hleft : len - done using Nat.strongRecOn generalizing done with
  | ind left ih =>
    subst hleft
    rw [visitRuns]
    by_cases hdone : done < len
    · have hp : p + done < v.size := by omega
      obtain ⟨hpos, hreach⟩ := h.reach_bounds hp (Nat.sub_pos_of_lt hdone)
      have hstride : stride v.reach (p + done) (len - done) = v.reach (p + done) (len - done) := by
        unfold stride
        omega
      have hrest := ih (len - (done + v.reach (p + done) (len - done))) (by omega)
        (done + v.reach (p + done) (len - done)) rfl
      rw [dif_pos hdone, (h.agree_nextRun hle hdone).eq hm, v.runs_of_lt p hdone, hstride]
      show (visit _ >>= fun _ => if _ : v.reach (p + done) (len - done) = 0 then _ else _) = _
      rw [dif_neg (by omega), hrest]
      rfl
    · rw [dif_neg hdone, v.runs_of_ge p hdone]
      rfl

/-! ## Visits that fail -/

/-- The visits that are made from a state on, what they come to and the state they leave: each succeeds,
save that the last one may fail. -/
inductive Visited (visit : Run → Act σ Unit) : List Run → σ → Except Error Unit → σ → Prop where
  | none (s : σ) : Visited visit [] s (.ok ()) s
  | failed {r : Run} {s t : σ} {e : Error} (fails : (visit r).outcome s = (.error e, t)) :
      Visited visit [r] s (.error e) t
  | next {r : Run} {rest : List Run} {s t u : σ} {result : Except Error Unit}
      (succeeds : (visit r).outcome s = (.ok (), t)) (others : Visited visit rest t result u) :
      Visited visit (r :: rest) s result u

/-- Of the runs in a list, a beginning is visited, which is all of them unless a visit fails. -/
theorem exists_visited (visit : Run → Act σ Unit) (runs : List Run) (s : σ) :
    ∃ made, made <+: runs ∧
      Visited visit made s ((runs.forM visit).outcome s).1 ((runs.forM visit).outcome s).2 ∧
      (((runs.forM visit).outcome s).1 = .ok () → made = runs) := by
  induction runs generalizing s with
  | nil => exact ⟨[], List.prefix_refl [], .none s, fun _ => rfl⟩
  | cons r runs ih =>
    have hfirst : ((r :: runs).forM visit).outcome s =
        Act.resume (fun _ => (runs.forM visit).outcome) ((visit r).outcome s) := Act.outcome_bind ..
    rw [hfirst]
    rcases hvisit : (visit r).outcome s with ⟨e | u, t⟩
    · refine ⟨[r], ⟨runs, rfl⟩, .failed hvisit, fun hok => ?_⟩
      cases hok
    · obtain ⟨made, hprefix, hvisited, hall⟩ := ih t
      refine ⟨r :: made, (List.prefix_cons_inj r).2 hprefix, .next hvisit hvisited, fun hok => ?_⟩
      rw [hall hok]

end View

end Orthotope
