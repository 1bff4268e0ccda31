import Orthotope.Proofs.Cube.Bulk
import Orthotope.Proofs.View.Visits

/-!
# Bulk transfers visit runs

A bulk transfer through a view is the loop `View.visitRuns` over the runs of its request. What a visit does is
all that differs: a write moves the elements that belong to the run (`Channel.visitRuns_writeRun`), and a read puts
what it finds behind what was found before (`Channel.readVisits_visitRuns`).

Every view that is reached from a leaf fits, wherever it lies in the stack of layers, so that all requests in
range are visited in full, without a gap and without going beyond what lies beneath
(`Layered.visits_partition`).
-/

namespace Orthotope

variable {σ α : Type} {v : View} {p len : Nat}

namespace Channel

/-! ## Writes -/

/-- What is left of a write after the first `done` elements visits the runs that are left. -/
theorem writeRuns_drop (c : Channel σ α) (v : View) (p : Nat) (xs : List α) (done : Nat) :
    c.writeRuns (v.runs (p + done) (len - done)) (xs.drop done) =
      ((v.runs (p + done) (len - done)).map (View.Run.since p)).forM (c.writeRun xs) := by
  induction hleft : len - done using Nat.strongRecOn generalizing done with
  | ind left ih =>
    subst hleft
    by_cases hdone : done < len
    · have hpos : 1 ≤ stride v.reach (p + done) (len - done) := one_le_stride ..
      have hrest := ih _ (by omega) (done + stride v.reach (p + done) (len - done)) rfl
      rw [v.runs_of_lt p hdone, v.runs_of_ne_zero _ (by omega), writeRuns, List.drop_drop, Nat.add_assoc,
        ← Nat.sub_add_eq, hrest]
      rfl
    · rw [v.runs_of_ge p hdone, Nat.sub_eq_zero_of_le (Nat.le_of_not_lt hdone), v.runs_zero]
      rfl

theorem visitRuns_writeRun (c : Channel σ α) (h : v.Fits) {m : Arithmetic}
    (hm : m = .unbounded ∨ v.Small) {xs : List α} (hle : p + xs.length ≤ v.size) :
    v.visitRuns m v.size p xs.length (c.writeRun xs) 0 = c.writeRuns (v.runs p xs.length) xs := by
  rw [h.visitRuns_eq hm hle]
  exact (c.writeRuns_drop v p xs 0).symm

/-! ## Reads -/

/-- Visiting runs to read them leaves the state that the transfer of these runs leaves, and finds what it
hands over, also if a run is read in part. -/
theorem run_readRuns (c : Channel σ α) (runs : List View.Run) (s : σ) (found : Array α) :
    (runs.forM c.readRun).run.run (s, found) =
      ⟨((c.readRuns runs).run s).value.result, ((c.readRuns runs).run s).events,
        (((c.readRuns runs).run s).state, found ++ ((c.readRuns runs).run s).value.items)⟩ := by
  induction runs generalizing s found with
  | nil => simp [readRuns, Transfer.done]
  | cons r runs ih =>
    have hvisits : ((r :: runs).forM c.readRun).run.run (s, found) =
        ((c.readRun r).run >>= ExceptT.bindCont fun _ => runs.forM c.readRun).run (s, found) := rfl
    rw [hvisits, Effect.run_bind, readRuns, Effect.run_bind]
    rcases hread : (c.read r.inner r.span.length).run s with ⟨⟨items, result⟩, events, t⟩
    have hfirst : (c.readRun r).run.run (s, found) = ⟨result, events, (t, found ++ items)⟩ := by
      show (⟨_, _, _⟩ : Outcome _ _) = _
      rw [hread]
    rw [hfirst]
    cases result with
    | error e => simp [ExceptT.bindCont]
    | ok u =>
      have hgo : ExceptT.bindCont (fun _ => runs.forM c.readRun) (.ok u) = (runs.forM c.readRun).run := rfl
      have hfound (more : List α) : found ++ items ++ more = found ++ (items ++ more) :=
        Array.ext' (by simp)
      dsimp only
      rw [hgo, ih t (found ++ items)]
      simp only [Effect.run_bind, Effect.run_pure, Transfer.after, List.append_nil, hfound]

/-- A read is handed over what the visits of its runs find. -/
theorem readVisits_visitRuns (c : Channel σ α) (h : v.Fits) {m : Arithmetic}
    (hm : m = .unbounded ∨ v.Small) (hle : p + len ≤ v.size) :
    readVisits (v.visitRuns m v.size p len c.readRun 0) = c.readRuns (v.runs p len) := by
  have hshift : ((v.runs p len).map (View.Run.since p)).forM c.readRun =
      (v.runs p len).forM c.readRun := List.forM_map
  rw [h.visitRuns_eq hm hle]
  show readVisits (((v.runs p len).map (View.Run.since p)).forM c.readRun) = _
  rw [hshift]
  ext s
  show (⟨_, _, _⟩ : Outcome _ _) = _
  rw [c.run_readRuns]
  simp

end Channel

/-! ## Stacks of layers -/

variable {k k₀ : Kind} {slot : Nat} {dims : List Dimension} {c : Cube k}

namespace Cube

/-- The views in a stack of layers, the topmost first. -/
def stacked : {k : Kind} → Cube k → List View
  | _, leaf .. => []
  | _, view _ inner dims transform => inner.viewOver dims transform :: inner.stacked
  | _, cast _ inner _ => inner.stacked

theorem Fits.of_mem_stacked (h : c.Fits) (hv : v ∈ c.stacked) : v.Fits := by
  induction c with
  | leaf => cases hv
  | view serial inner dims transform ih =>
    rcases List.mem_cons.1 hv with rfl | hv
    · exact h.2
    · exact ih h.1 hv
  | cast serial inner target ih => exact ih h hv

end Cube

namespace Layered

/-- The runs of a request in range partition it, for every view that is reached from a leaf. In the order of
the list they cover each offset in the request once, ascending. None is empty, the offsets that one covers
show consecutive positions beneath, and it ends within what lies beneath. The loop that finds the runs one by
one comes to an end, if numbers have no bound or the view is small: it visits the runs of the list and no
others, all of them unless a visit fails, which is the last one then. The bulk transfers of the view are this
loop. -/
theorem visits_partition (h : Layered (.leaf k₀ slot dims) c) (hv : v ∈ c.stacked)
    (hle : p + len ≤ v.size) :
    (v.visits p len).flatMap (fun r => List.range' r.span.start r.span.length) = List.range len ∧
    (∀ r ∈ v.visits p len, 0 < r.span.length ∧ r.inner + r.span.length ≤ sizeOf v.source ∧
      ∀ i, r.span.start ≤ i → i < r.span.start + r.span.length →
        v.position (p + i) = r.inner + (i - r.span.start)) ∧
    ∀ m : Arithmetic, m = .unbounded ∨ v.Small →
      (∀ {σ : Type} (visit : View.Run → Act σ Unit) (s : σ),
        let outcome := (v.visitRuns m v.size p len visit 0).outcome s
        ∃ made, made <+: v.visits p len ∧ View.Visited visit made s outcome.1 outcome.2 ∧
          (outcome.1 = .ok () → made = v.visits p len)) ∧
      (∀ {σ α : Type} (beneath : Channel σ α) (xs : List α), xs.length = len →
        v.visitRuns m v.size p len (beneath.writeRun xs) 0 = beneath.writeRuns (v.runs p len) xs) ∧
      ∀ {σ α : Type} (beneath : Channel σ α),
        Channel.readVisits (v.visitRuns m v.size p len beneath.readRun 0) =
          beneath.readRuns (v.runs p len) := by
  have hfits : v.Fits := h.fits_and_bottom.1.of_mem_stacked hv
  refine ⟨v.flatMap_visits p len, fun r hr => ?_, fun m hm => ⟨fun visit s => ?_, ?_,
    fun beneath => beneath.readVisits_visitRuns hfits hm hle⟩⟩
  · exact ⟨View.length_pos_of_mem_visits hr, hfits.position_of_mem_visits hr hle⟩
  · rw [hfits.visitRuns_eq hm hle]
    exact View.exists_visited visit (v.visits p len) s
  · rintro _ _ beneath xs rfl
    exact beneath.visitRuns_writeRun hfits hm hle

/-- A request through a rolled view has a run that begins in the middle of a row, one at the end of the next
row and one at its start. A visit that fails at the second one is the last. -/
theorem visits_partition_rolled :
    let leaf : Cube .i32 := .leaf .i32 0 [.ofLength 2, .ofLength 3]
    let v := leaf.viewOver leaf.dims (.rolled [0, 1])
    let visit : View.Run → Act (List Nat) Unit := fun r => do
      if r.inner = 5 then throw .readOnly
      Act.ofEffect (Effect.update (· ++ [r.inner]))
    Layered leaf (.view 0 leaf leaf.dims (.rolled [0, 1])) ∧ 1 + 4 ≤ v.size ∧
      v.visits 1 4 = [⟨0, 0, 2⟩, ⟨5, 2, 1⟩, ⟨3, 3, 1⟩] ∧
      v.position (1 + 1) = 0 + (1 - 0) ∧
      ∃ made, made <+: v.visits 1 4 ∧ View.Visited visit made [] (.error .readOnly) [0] := by
  intro leaf v visit
  have h : Layered leaf (.view 0 leaf leaf.dims (.rolled [0, 1])) :=
    .derive .root (rfl : Derivation.make 0 leaf (.roll [0, 1]) = .ok _)
  have hle : 1 + 4 ≤ v.size := by decide
  have hlast : walk v.reach 4 1 = [⟨4, 1⟩] :=
    (walk_of_ne_zero (by decide)).trans (congrArg (⟨4, 1⟩ :: ·) (walk_zero v.reach 5))
  have hnext : walk v.reach 3 2 = [⟨3, 1⟩, ⟨4, 1⟩] :=
    (walk_of_ne_zero (by decide)).trans (congrArg (⟨3, 1⟩ :: ·) hlast)
  have hwalk : walk v.reach 1 4 = [⟨1, 2⟩, ⟨3, 1⟩, ⟨4, 1⟩] :=
    (walk_of_ne_zero (by decide)).trans (congrArg (⟨1, 2⟩ :: ·) hnext)
  have hvisits : v.visits 1 4 = [⟨0, 0, 2⟩, ⟨5, 2, 1⟩, ⟨3, 3, 1⟩] := by
    rw [View.visits, View.runs, hwalk]
    rfl
  have hsmall : v.Small := by decide
  obtain ⟨-, hruns, hloop⟩ := visits_partition h List.mem_cons_self hle
  have hfirst : ⟨0, 0, 2⟩ ∈ v.visits 1 4 := hvisits ▸ List.mem_cons_self
  have houtcome : (v.visitRuns .checked v.size 1 4 visit 0).outcome [] =
      (.error .readOnly, [0]) := by
    have hfits : v.Fits := h.fits_and_bottom.1.of_mem_stacked List.mem_cons_self
    rw [hfits.visitRuns_eq (.inr hsmall) hle]
    show ((v.visits 1 4).forM visit).outcome [] = _
    rw [hvisits]
    rfl
  obtain ⟨made, hprefix, hmade, -⟩ := (hloop .checked (.inr hsmall)).1 visit []
  rw [houtcome] at hmade
  exact ⟨h, hle, hvisits, (hruns _ hfirst).2.2 1 (by decide) (by decide), made, hprefix, hmade⟩

end Layered

end Orthotope
