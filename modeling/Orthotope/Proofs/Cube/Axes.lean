import Orthotope.Proofs.Cube.Folding

/-!
# What an operation can give

An operation gives the cube itself, what is under a view of its own kind, or a new view over that
(`Derivation.Gives`). That is all that later proofs need to know of how operations are folded.

A transposed view has the axes of the cube beneath in reverse order, and a rolled one has the very axes
of the cube beneath (`Transform.Reorders`). Every cube that is made from a leaf consists of such views
(`Layered.keepsAxes`), and so a roll leaves the axes of a cube as they are, whatever it is folded into
(`Cube.KeepsAxes.dims_of_rolls`).
-/

namespace Orthotope

/-- The axes of a transposed view are those beneath in reverse order, and the axes of a rolled view are
those beneath. -/
def Transform.Reorders (inner dims : List Dimension) : Transform → Prop
  | .transposed => dims = inner.reverse
  | .rolled _ | .flatRolled _ => dims = inner
  | .sliced _ | .masked _ | .reshaped => True

namespace Cube

variable {k : Kind} {c d : Cube k} {kind : ViewKind} {serial : Nat}

/-- The views in a cube have axes as their transforms say, as far as those only put them into another
order. -/
def KeepsAxes : {k : Kind} → Cube k → Prop
  | _, leaf .. => True
  | _, view _ inner dims transform => inner.KeepsAxes ∧ transform.Reorders inner.dims dims
  | _, cast _ inner _ => inner.KeepsAxes

theorem KeepsAxes.under (h : c.KeepsAxes) (kind : ViewKind) : (c.under kind).KeepsAxes := by
  cases c with
  | leaf | cast => exact h
  | view serial inner dims transform =>
    by_cases hkind : transform.viewKind = kind
    · rw [under_view hkind]
      exact h.1
    · rw [under_view_of_ne hkind]
      exact h

/-- Under a rolled view there are the same axes. -/
theorem KeepsAxes.dims_under (h : c.KeepsAxes) (hkind : kind = .rolled ∨ kind = .flatRolled) :
    (c.under kind).dims = c.dims := by
  cases c with
  | leaf | cast => rfl
  | view serial inner dims transform =>
    by_cases hview : transform.viewKind = kind
    · rw [under_view hview]
      subst hview
      cases transform with
      | rolled | flatRolled => exact h.2.symm
      | transposed | sliced | masked | reshaped => rcases hkind with h | h <;> cases h
    · rw [under_view_of_ne hview]

end Cube

namespace Derivation

variable {k : Kind} {c d : Cube k} {kind : ViewKind} {serial : Nat}

/-- What an operation whose views are of a kind can give, when it would bear the number `serial`. -/
inductive Gives (serial : Nat) (kind : ViewKind) (c : Cube k) : Cube k → Prop where
  | same : Gives serial kind c c
  | under : Gives serial kind c (c.under kind)
  | view (dims : List Dimension) (transform : Transform) (hkind : transform.viewKind = kind)
      (haxes : transform.Reorders (c.under kind).dims dims) :
      Gives serial kind c (.view serial (c.under kind) dims transform)

/-- A new view on a cube that is itself no view of the kind. -/
theorem Gives.fresh {dims : List Dimension} {transform : Transform} (hunder : c.under kind = c)
    (hkind : transform.viewKind = kind) (haxes : transform.Reorders c.dims dims) :
    Gives serial kind c (.view serial c dims transform) := by
  have hview : Gives serial kind c (.view serial (c.under kind) dims transform) :=
    view dims transform hkind (hunder.symm ▸ haxes)
  rwa [hunder] at hview

theorem gives_transpose (c : Cube k) : Gives serial .transposed c (c.transpose serial) := by
  unfold Cube.transpose
  split
  · exact .same
  cases c with
  | leaf | cast => exact .fresh rfl rfl rfl
  | view s inner dims transform =>
    cases transform with
    | transposed => exact .under
    | _ => exact .fresh rfl rfl rfl

theorem gives_rollBy (h : c.KeepsAxes) (shifts : List Nat) :
    Gives serial .rolled c (c.rollBy serial shifts) := by
  unfold Cube.rollBy
  split
  · exact .same
  cases c with
  | leaf | cast => exact .fresh rfl rfl rfl
  | view s inner dims transform =>
    cases transform with
    | rolled current =>
      dsimp only
      split
      · exact .under
      · exact .view dims _ rfl h.2
    | _ => exact .fresh rfl rfl rfl

theorem gives_roll (h : c.KeepsAxes) {shifts : List Int} (hmake : c.roll serial shifts = .ok d) :
    Gives serial .rolled c d := by
  unfold Cube.roll at hmake
  split at hmake
  · cases hmake
    exact gives_rollBy h _
  · cases hmake

theorem gives_rollFlat (h : c.KeepsAxes) (shift : Int) :
    Gives serial .flatRolled c (c.rollFlat serial shift) := by
  unfold Cube.rollFlat
  dsimp only
  split
  · exact .same
  cases c with
  | leaf | cast => exact .fresh rfl rfl rfl
  | view s inner dims transform =>
    cases transform with
    | flatRolled current =>
      dsimp only
      split
      · exact .under
      · exact .view dims _ rfl h.2
    | _ => exact .fresh rfl rfl rfl

theorem gives_slice {accessors : List Accessor} (hmake : c.slice serial accessors = .ok d) :
    Gives serial .sliced c d := by
  obtain ⟨axes, haxes, hrank⟩ := Cube.resolved_of_slice hmake
  rw [Cube.slice_of_resolved hrank haxes] at hmake
  split at hmake
  · cases hmake
    exact .same
  · obtain ⟨dims, -, rfl⟩ := Cube.sliceBy_eq_ok hmake
    exact .view dims _ rfl trivial

theorem gives_mask {marks : BitSet} (hmake : c.mask serial marks = .ok d) :
    Gives serial .masked c d := by
  unfold Cube.mask at hmake
  split at hmake
  · cases hmake
  split at hmake
  · cases hmake
  split at hmake
  · cases hmake
    exact .same
  cases c with
  | leaf | cast =>
    cases hmake
    exact .fresh rfl rfl trivial
  | view s inner dims transform =>
    cases transform with
    | masked current =>
      cases hmake
      exact .view _ _ rfl trivial
    | _ =>
      cases hmake
      exact .fresh rfl rfl trivial

theorem gives_reshape {shape : List Nat} (hmake : c.reshape serial shape = .ok d) :
    Gives serial .reshaped c d := by
  unfold Cube.reshape at hmake
  split at hmake
  · cases hmake
  split at hmake
  · cases hmake
    exact .same
  have hover : (if shape = (c.under .reshaped).shape then .ok (c.under .reshaped)
      else .ok (.view serial (c.under .reshaped) (Dimension.ofShape shape) .reshaped) :
        Except Error (Cube k)) = .ok d → Gives serial .reshaped c d := by
    intro hmake
    split at hmake
    · cases hmake
      exact .under
    · cases hmake
      exact .view _ _ rfl trivial
  cases c with
  | leaf | cast => exact hover hmake
  | view s inner dims transform => cases transform <;> exact hover hmake

/-- What any operation gives if it succeeds. -/
theorem gives_make (h : c.KeepsAxes) (op : Derivation) (hmake : op.make serial c = .ok d) :
    Gives serial op.viewKind c d := by
  cases op with
  | transpose =>
    cases hmake
    exact gives_transpose c
  | roll => exact gives_roll h hmake
  | rollAxes => exact gives_roll h (Cube.roll_of_rollAxes hmake)
  | rollFlat =>
    cases hmake
    exact gives_rollFlat h _
  | slice => exact gives_slice hmake
  | mask => exact gives_mask hmake
  | reshape => exact gives_reshape hmake

theorem Gives.keepsAxes (hgives : Gives serial kind c d) (h : c.KeepsAxes) : d.KeepsAxes := by
  cases hgives with
  | same => exact h
  | under => exact h.under kind
  | view dims transform hkind haxes => exact ⟨h.under kind, haxes⟩

end Derivation

/-- A roll leaves the axes of a cube as they are. -/
theorem Cube.KeepsAxes.dims_of_rolls {k : Kind} {c d : Cube k} {serial : Nat} (h : c.KeepsAxes)
    {op : Derivation} (hkind : op.viewKind = .rolled ∨ op.viewKind = .flatRolled)
    (hmake : op.make serial c = .ok d) : d.dims = c.dims := by
  cases Derivation.gives_make h op hmake with
  | same => rfl
  | under => exact h.dims_under hkind
  | view dims transform hview haxes =>
    refine Eq.trans ?_ (h.dims_under hkind)
    cases transform with
    | rolled | flatRolled => exact haxes
    | transposed | sliced | masked | reshaped =>
      rw [← hview] at hkind
      rcases hkind with h | h <;> cases h

theorem Layered.keepsAxes {k₀ k : Kind} {slot : Nat} {dims : List Dimension} {c : Cube k}
    (h : Layered (.leaf k₀ slot dims) c) : c.KeepsAxes := by
  induction h with
  | root => trivial
  | derive _ make ih => exact (Derivation.gives_make ih _ make).keepsAxes ih
  | convert _ ih => exact ih

end Orthotope
