import Orthotope.Proofs.Cube.Axes
import Orthotope.Proofs.Machine.Derive
import Orthotope.Workspace

/-!
# Which cube an operation gives

A new view or conversion bears the serial number of the workspace, which goes on to the next number then
(`Session.run_derive`). So all numbers in a cube that was made are below that of the workspace
(`Cube.Made.serialsBelow`), and what an operation gives is either an object that was there or one that
is told from all of them.

That decides whether two transpositions give a cube back (`Cube.Made.transpose_twice`). They do unless
the cube is itself a transposed view. Of such a view the first transposition gives the cube beneath, and
the second puts a new view on that.
-/

namespace Orthotope

/-! ## Making cubes in a workspace -/

namespace Session

variable {k : Kind} {make : Nat → Except Error (Cube k)} {c : Cube k} {w : Workspace}

theorem run_report_all (events : List Event) (w : Workspace) : ∃ w',
    (events.forM report).run.run w = (.ok (), w') ∧ w'.store = w.store ∧ w'.serial = w.serial := by
  induction events generalizing w with
  | nil => exact ⟨w, rfl, rfl, rfl⟩
  | cons event events ih =>
    obtain ⟨w', hrun, hstore, hserial⟩ := ih { w with events := w.events.push event }
    exact ⟨w', hrun, hstore, hserial⟩

/-- A cube that is made takes a number just if it is new, and the store stays as it is. -/
theorem run_derive (make : Nat → Except Error (Cube k)) (hmake : make w.serial = .ok c) :
    ∃ w', (derive make).run.run w = (.ok c, w') ∧ w'.store = w.store ∧
      w'.serial = if c.identity = .serial w.serial then w.serial + 1 else w.serial := by
  have hrun : (derive make).run.run w = (do
      if c.identity = .serial w.serial then
        modify fun w' => { w' with serial := w.serial + 1 }
        c.creation.forM report
      return c : Session (Cube k)).run.run w := by
    show (liftM (make w.serial) >>= _ : Session (Cube k)).run.run w = _
    rw [hmake]
    rfl
  rw [hrun]
  by_cases hnew : c.identity = .serial w.serial
  · obtain ⟨w', hreports, hstore, hserial⟩ :=
      run_report_all c.creation { w with serial := w.serial + 1 }
    refine ⟨w', ?_, hstore, ?_⟩
    · rw [if_pos hnew]
      show ((c.creation.forM report : Session Unit) >>= fun _ => pure c).run.run
        { w with serial := w.serial + 1 } = _
      rw [ExceptT.run_bind, StateT.run_bind, hreports]
      rfl
    · rw [if_pos hnew, hserial]
  · refine ⟨w, ?_, rfl, (if_neg hnew).symm⟩
    rw [if_neg hnew]
    rfl

theorem run_derive_error (make : Nat → Except Error (Cube k)) {e : Error}
    (hmake : make w.serial = .error e) : (derive make).run.run w = (.error e, w) := by
  show (liftM (make w.serial) >>= _ : Session (Cube k)).run.run w = _
  rw [hmake]
  rfl

/-- A cube that was made was made with the number that the workspace had. -/
theorem derive_eq_ok {w' : Workspace} (hrun : (derive make).run.run w = (.ok c, w')) :
    make w.serial = .ok c ∧ w'.store = w.store ∧
      w'.serial = if c.identity = .serial w.serial then w.serial + 1 else w.serial := by
  cases hmake : make w.serial with
  | error e =>
    rw [run_derive_error make hmake] at hrun
    cases hrun
  | ok d =>
    obtain ⟨v, hrun', hrest⟩ := run_derive make hmake
    rw [hrun'] at hrun
    cases hrun
    exact ⟨rfl, hrest⟩

end Session

/-- Does an operation on a cube. -/
def Derivation.run {k : Kind} (c : Cube k) (op : Derivation) : Session (Cube k) :=
  Session.derive fun serial => op.make serial c

/-- Does an operation on a cube in a given arithmetic. -/
def Derivation.runIn (m : Arithmetic) {k : Kind} (c : Cube k) (op : Derivation) : Session (Cube k) :=
  Session.derive fun serial => op.makeIn m serial c

/-- Converts the elements of a cube to another kind. -/
def Cube.convertTo {k : Kind} (c : Cube k) (target : Kind) : Session (Cube target) :=
  Session.derive fun serial => .ok (c.convert serial target)

namespace Cube

/-- A cube that came out of another in a workspace, by operations and conversions between which anything
else may have been done. -/
inductive Made {k₀ : Kind} (root : Cube k₀) : Workspace → {k : Kind} → Cube k → Prop where
  | root (w : Workspace) : Made root w root
  | derive {k : Kind} {c d : Cube k} {op : Derivation} {w w' : Workspace} (beneath : Made root w c)
      (run : (op.run c).run.run w = (.ok d, w')) : Made root w' d
  | convert {k target : Kind} {c : Cube k} {d : Cube target} {w w' : Workspace}
      (beneath : Made root w c) (run : (c.convertTo target).run.run w = (.ok d, w')) : Made root w' d
  | later {k : Kind} {c : Cube k} {w w' : Workspace} (before : Made root w c)
      (le : w.serial ≤ w'.serial) : Made root w' c

/-- All views and conversions in a cube bear numbers below a bound. -/
def SerialsBelow (n : Nat) : {k : Kind} → Cube k → Prop
  | _, leaf .. => True
  | _, view serial inner _ _ => serial < n ∧ inner.SerialsBelow n
  | _, cast serial inner _ => serial < n ∧ inner.SerialsBelow n

/-- Whether a cube is a transposed view. -/
def isTransposed {k : Kind} : Cube k → Bool
  | view _ _ _ .transposed => true
  | _ => false

variable {k k₀ : Kind} {c d : Cube k} {n : Nat}

theorem SerialsBelow.mono (h : c.SerialsBelow n) {m : Nat} (hle : n ≤ m) : c.SerialsBelow m := by
  induction c with
  | leaf => trivial
  | view serial inner dims transform ih => exact ⟨Nat.lt_of_lt_of_le h.1 hle, ih h.2⟩
  | cast serial inner target ih => exact ⟨Nat.lt_of_lt_of_le h.1 hle, ih h.2⟩

/-- A cube is not the one that is made next. -/
theorem SerialsBelow.ne_next (h : c.SerialsBelow n) : c.identity ≠ .serial n := by
  cases c with
  | leaf => exact Identity.noConfusion
  | view serial | cast serial =>
    intro heq
    exact absurd (Identity.serial.inj heq) (Nat.ne_of_lt h.1)

theorem SerialsBelow.under (h : c.SerialsBelow n) (kind : ViewKind) :
    (c.under kind).SerialsBelow n := by
  cases c with
  | leaf | cast => exact h
  | view serial inner dims transform =>
    by_cases hkind : transform.viewKind = kind
    · rw [under_view hkind]
      exact h.2
    · rw [under_view_of_ne hkind]
      exact h

/-- What an operation gives has numbers below that of the workspace that is left. -/
theorem SerialsBelow.gives {kind : ViewKind} (h : c.SerialsBelow n)
    (hgives : Derivation.Gives n kind c d) :
    d.SerialsBelow (if d.identity = .serial n then n + 1 else n) := by
  cases hgives with
  | same =>
    rw [if_neg h.ne_next]
    exact h
  | under =>
    rw [if_neg (h.under kind).ne_next]
    exact h.under kind
  | view dims transform =>
    have hnew : (Cube.view n (c.under kind) dims transform).identity = .serial n := rfl
    rw [if_pos hnew]
    exact ⟨Nat.lt_succ_self n, (h.under kind).mono (Nat.le_succ n)⟩

namespace Made

variable {slot : Nat} {dims : List Dimension} {w : Workspace}

theorem layered {root : Cube k₀} (h : Made root w c) : Layered root c := by
  induction h with
  | root => exact .root
  | derive _ run ih => exact .derive ih (Session.derive_eq_ok run).1
  | convert _ run ih =>
    cases (Session.derive_eq_ok run).1
    exact .convert ih
  | later _ _ ih => exact ih

/-- All numbers in a cube are below that of the workspace. -/
theorem serialsBelow (h : Made (.leaf k₀ slot dims) w c) : c.SerialsBelow w.serial := by
  induction h with
  | root => trivial
  | @derive k c d op w w' beneath run ih =>
    obtain ⟨hmake, -, hserial⟩ := Session.derive_eq_ok run
    rw [hserial]
    exact ih.gives (Derivation.gives_make beneath.layered.keepsAxes op hmake)
  | @convert k target c d w w' beneath run ih =>
    obtain ⟨hmake, -, hserial⟩ := Session.derive_eq_ok run
    cases hmake
    have hnew : (c.convert w.serial target).identity = .serial w.serial := rfl
    rw [hserial, if_pos hnew]
    exact ⟨Nat.lt_succ_self _, ih.mono (Nat.le_succ _)⟩
  | later _ le ih => exact ih.mono le

end Made

/-! ## Transposing twice -/

section
variable {serial serial' : Nat}

theorem transpose_of_rank_le (hrank : c.rank ≤ 1) : c.transpose serial = c := if_pos hrank

theorem transpose_of_not_transposed (hrank : ¬ c.rank ≤ 1) (h : c.isTransposed = false) :
    c.transpose serial = view serial c c.dims.reverse .transposed := by
  unfold transpose
  rw [if_neg hrank]
  cases c with
  | leaf | cast => rfl
  | view s inner dims transform =>
    cases transform with
    | transposed => cases h
    | _ => rfl

/-- Two transpositions give a cube back that is no transposed view. -/
theorem transpose_transpose (h : c.isTransposed = false) :
    (c.transpose serial).transpose serial' = c := by
  by_cases hrank : c.rank ≤ 1
  · rw [transpose_of_rank_le hrank, transpose_of_rank_le hrank]
  · have hview : ¬ (view serial c c.dims.reverse .transposed).rank ≤ 1 := by
      rw [rank, dims, List.length_reverse]
      exact hrank
    rw [transpose_of_not_transposed hrank h]
    exact if_neg hview

/-- A transposed view that is reduced is one of a cube with several axes, which is itself no transposed
view, and has its axes in reverse order. -/
theorem Reduced.transposed {inner : Cube k} {dims : List Dimension}
    (h : (view serial inner dims .transposed).Reduced)
    (haxes : (view serial inner dims .transposed).KeepsAxes) :
    ¬ inner.rank ≤ 1 ∧ inner.isTransposed = false ∧ dims = inner.dims.reverse := by
  obtain ⟨-, hproper, hhead⟩ := reduced_view.1 h
  have hrank : 2 ≤ inner.shape.length := hproper
  rw [shape, shapeOf, List.length_map] at hrank
  refine ⟨Nat.not_le.2 hrank, ?_, haxes.2⟩
  cases inner with
  | leaf | cast => rfl
  | view s beneath axes transform =>
    cases transform with
    | transposed => exact absurd rfl (hhead _ rfl)
    | _ => rfl

end

/-- A transposed view that was made bears a number that was given out. Transposing it gives the cube
beneath, and transposing that gives a transposed view with the same axes. -/
theorem Made.exists_inner {slot : Nat} {dims : List Dimension} {w : Workspace}
    (h : Made (.leaf k₀ slot dims) w c) (htransposed : c.isTransposed = true) :
    ∃ s inner, c = view s inner inner.dims.reverse .transposed ∧ s < w.serial ∧ ∀ serial,
      c.transpose serial = inner ∧
        inner.transpose serial = view serial inner inner.dims.reverse .transposed := by
  cases c with
  | leaf | cast => cases htransposed
  | view s inner axes transform =>
    cases transform with
    | sliced | rolled | flatRolled | masked | reshaped => cases htransposed
    | transposed =>
      obtain ⟨hrank, hinner, rfl⟩ := h.layered.reduced.transposed h.layered.keepsAxes
      have hview : ¬ (view s inner inner.dims.reverse .transposed).rank ≤ 1 := by
        rw [rank, Cube.dims, List.length_reverse]
        exact hrank
      exact ⟨s, inner, rfl, h.serialsBelow.1, fun serial =>
        ⟨if_neg hview, transpose_of_not_transposed hrank hinner⟩⟩

/-- Transposing a cube twice gives the very cube back unless that is itself a transposed view. For a
transposed view the first transposition gives the very cube beneath. The second one makes another
transposed view of that, which has the same axes and reaches the same elements, but is not the same
object. It is so in any arithmetic in which the size of the shape is found, from the first axis and from the
last. -/
theorem Made.transpose_twice {slot : Nat} {dims : List Dimension} {w : Workspace} {m : Arithmetic}
    (h : Made (.leaf k₀ slot dims) w c) (hsize : m.Measures c.shape)
    (hreverse : m.Measures c.shape.reverse) :
    ∃ d v e v', (Derivation.transpose.runIn m c).run.run w = (.ok d, v) ∧
      (Derivation.transpose.runIn m d).run.run v = (.ok e, v') ∧
      (c.isTransposed = false → e = c) ∧
      (c.isTransposed = true → c.inner? = some d ∧ e.inner? = some d ∧ e.isTransposed = true) ∧
      (e.same c = true ↔ c.isTransposed = false) ∧
      e.dims = c.dims ∧
      ∀ {σ : Type} (slots : (k : Kind) → Nat → List Nat → Access σ k.Elem),
        e.access slots = c.access slots := by
  obtain ⟨v, hrun, -, hserial⟩ := Session.run_derive
    (fun serial => Derivation.transpose.makeIn m serial c) (w := w)
    ((makes_transposeIn w.serial c).agree.eq hreverse)
  have hshape : (c.transpose w.serial).shape.reverse = c.shape := by
    rw [(presents_transpose h.layered.fits_and_bottom.1).shape_eq, List.reverse_reverse]
  obtain ⟨v', hrun', -, -⟩ := Session.run_derive
    (fun serial => Derivation.transpose.makeIn m serial (c.transpose w.serial)) (w := v)
    ((makes_transposeIn v.serial (c.transpose w.serial)).agree.eq (hshape ▸ hsize))
  refine ⟨_, v, _, v', hrun, hrun', ?_⟩
  cases htransposed : c.isTransposed with
  | false =>
    have hback : (c.transpose w.serial).transpose v.serial = c := transpose_transpose htransposed
    rw [hback]
    have hsame : c.same c = true := decide_eq_true rfl
    exact ⟨fun _ => rfl, fun hfalse => absurd hfalse Bool.false_ne_true, iff_of_true hsame rfl, rfl,
      fun _ => rfl⟩
  | true =>
    obtain ⟨s, inner, rfl, hs, htranspose⟩ := h.exists_inner htransposed
    -- the number of the view that was there is below that of the one that is made
    have hlt : s < v.serial := by
      rw [hserial]
      split
      · exact Nat.lt_succ_of_lt hs
      · exact hs
    have hother : ¬ (view v.serial inner inner.dims.reverse .transposed).same
        (view s inner inner.dims.reverse .transposed) = true := by
      rw [same, decide_eq_true_eq]
      exact fun heq => Nat.ne_of_gt hlt (Identity.serial.inj heq)
    rw [(htranspose w.serial).1, (htranspose v.serial).2]
    exact ⟨fun hfalse => absurd hfalse Bool.false_ne_true.symm, fun _ => ⟨rfl, rfl, rfl⟩,
      iff_of_false hother Bool.false_ne_true.symm, rfl, fun _ => rfl⟩

/-- A rolled view of a transposed one is given back. -/
theorem Made.transpose_twice_rolled :
    let leaf : Cube .i32 := .leaf .i32 0 [.ofLength 2, .ofLength 3]
    ∃ t w c w', (Derivation.transpose.run leaf).run.run {} = (.ok t, w) ∧
      ((Derivation.rollFlat 1).run t).run.run w = (.ok c, w') ∧ Made leaf w' c ∧
      ∃ d v v', (Derivation.transpose.runIn .wrapping c).run.run w' = (.ok d, v) ∧
        (Derivation.transpose.runIn .wrapping d).run.run v = (.ok c, v') := by
  intro leaf
  obtain ⟨t, ht⟩ : ∃ t, t = leaf.transpose 0 := ⟨_, rfl⟩
  obtain ⟨w, hrun, -, -⟩ := Session.run_derive
    (fun serial => Derivation.transpose.make serial leaf) (c := t) (w := {}) (ht ▸ rfl)
  obtain ⟨c, hmake, hview, hshape⟩ : ∃ c, (Derivation.rollFlat 1).make w.serial t = .ok c ∧
      c.isTransposed = false ∧ c.shape = [3, 2] := ht ▸ ⟨_, rfl, rfl, rfl⟩
  obtain ⟨w', hrun', -, -⟩ := Session.run_derive
    (fun serial => (Derivation.rollFlat 1).make serial t) hmake
  have hmade : Made leaf w' c := .derive (.derive (.root {}) hrun) hrun'
  have hsize : Arithmetic.wrapping.Measures c.shape := .inr (hshape ▸ by decide)
  have hreverse : Arithmetic.wrapping.Measures c.shape.reverse := .inr (hshape ▸ by decide)
  obtain ⟨d, v, e, v', hd, he, hback, -⟩ := Made.transpose_twice hmade hsize hreverse
  obtain rfl := hback hview
  exact ⟨t, w, e, w', hrun, hrun', hmade, d, v, v', hd, he⟩

/-- A transposed view that is transposed twice is another object than before. -/
theorem Made.transposed_view_transposed_twice :
    let leaf : Cube .i32 := .leaf .i32 0 [.ofLength 2, .ofLength 3]
    ∃ c w d v e v', (Derivation.transpose.run leaf).run.run {} = (.ok c, w) ∧ Made leaf w c ∧
      (Derivation.transpose.run c).run.run w = (.ok d, v) ∧
      (Derivation.transpose.run d).run.run v = (.ok e, v') ∧ e.same c = false :=
  ⟨_, _, _, _, _, _, rfl, .derive (.root {}) (rfl : (Derivation.transpose.run _).run.run {} = _),
    rfl, rfl, rfl⟩

end Cube

end Orthotope
