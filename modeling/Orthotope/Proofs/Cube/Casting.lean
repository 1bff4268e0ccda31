import Orthotope.Proofs.BitSet.Edits
import Orthotope.Proofs.Cube.Labels
import Orthotope.Proofs.Store.Identity
import Orthotope.Proofs.Store.Offered

/-!
# Views of conversions and conversions of views

An operation on a conversion is not folded into the views beneath it, so that converting a cube before an
operation or after it gives different stacks of layers. They show the same even so
(`ViewCall.convert_commutes`).

Whether an operation fails, and how, depends on the shape only (`Derivation.make_check`). If it succeeds,
both stacks refer to the same positions of the cube (`Cube.Presents.sameAt`), convert the same elements, and
so are alike (`Cube.AlikeOver`). Their axes have the same keys (`Derivation.sameKeys_make`), also if those
of a slice are made from different axes. That is so for one operation
(`Derivation.run_convertTo`), and a call first finds out which operation it is to do
(`ViewCall.run_plan`), for which the conversion does not matter.
-/

namespace Orthotope

/-! ## When an operation fails -/

/-- The check that decides whether an operation on a cube of the given shape succeeds. -/
def Derivation.check (shape : List Nat) : Derivation → Except Error Unit
  | transpose | rollFlat _ => .ok ()
  | roll shifts =>
    if shifts.length = shape.length then .ok () else .error (.rank shape.length shifts.length)
  | rollAxes shifts axes =>
    if shifts.length ≠ axes.length then .error .rollCount
    else (spreadShifts shape.length [] (List.replicate shape.length 0) (shifts.zip axes)).map fun _ => ()
  | slice accessors =>
    if shape.length < accessors.length then .error .sliceRank
    else (Accessor.resolveAll shape accessors).map fun _ => ()
  | mask marks _ =>
    match shape with
    | [] => .error (.rank 1 0)
    | n :: _ => if marks.size ≠ n then .error (.axisLength 0 n marks.size) else .ok ()
  | reshape shape' => if sizeOf shape' ≠ sizeOf shape then .error .reshapeSize else .ok ()

section
variable {k : Kind} {c : Cube k} {serial : Nat}

/-- An operation fails just as the check of the shape does. -/
theorem Derivation.make_check (h : c.Fits) (op : Derivation) :
    (op.make serial c).map (fun _ => ()) = op.check c.shape := by
  cases op with
  | transpose | rollFlat => rfl
  | roll shifts =>
    show Except.map _ (c.roll serial shifts) = _
    rw [Cube.roll, check, c.rank_eq]
    split <;> rfl
  | rollAxes shifts axes =>
    show Except.map _ (c.rollAxes serial shifts axes) = _
    rw [Cube.rollAxes, check, c.rank_eq]
    split
    · rfl
    · cases hall : spreadShifts c.shape.length [] (List.replicate c.shape.length 0)
        (shifts.zip axes) with
      | error e => rfl
      | ok all =>
        obtain ⟨hlen, -⟩ := Cube.getD_spreadShifts (List.length_replicate) hall
        show Except.map _ (c.roll serial all) = _
        rw [Cube.roll, c.rank_eq, if_pos hlen]
        rfl
  | slice accessors =>
    rw [check]
    split
    · next hrank =>
      show Except.map _ (c.slice serial accessors) = _
      rw [Cube.slice, c.rank_eq, if_pos hrank]
      rfl
    · next hrank =>
      cases haxes : Accessor.resolveAll c.shape accessors with
      | error e =>
        show Except.map _ (c.slice serial accessors) = _
        rw [Cube.slice, c.rank_eq, if_neg hrank, haxes]
        rfl
      | ok axes =>
        have hrank : accessors.length ≤ c.rank := c.rank_eq ▸ Nat.not_lt.1 hrank
        obtain ⟨d, hd, -⟩ := Cube.presents_slice serial h hrank haxes
        show Except.map _ (c.slice serial accessors) = _
        rw [hd]
        rfl
  | mask marks canonical =>
    show Except.map _ (c.mask serial marks) = _
    cases hdims : c.dims with
    | nil =>
      have hshape : c.shape = [] := congrArg shapeOf hdims
      rw [Cube.mask, hdims, hshape]
      rfl
    | cons first rest =>
      have hshape : c.shape = first.length :: shapeOf rest := congrArg shapeOf hdims
      rw [Cube.mask, hdims, hshape]
      show Except.map _ (if marks.size ≠ first.length then _ else _) =
        if marks.size ≠ first.length then _ else _
      split
      · rfl
      split
      · rfl
      · dsimp only
        split <;> rfl
  | reshape shape =>
    show Except.map _ (c.reshape serial shape) =
      if sizeOf shape ≠ sizeOf c.shape then .error .reshapeSize else .ok ()
    have hover : ∀ b : Cube k, Except.map (fun _ => ()) (if shape = b.shape then .ok b
        else .ok (.view serial b (Dimension.ofShape shape) .reshaped) : Except Error (Cube k)) =
        .ok () := by
      intro b
      split <;> rfl
    unfold Cube.reshape Cube.size
    split
    · rfl
    split
    · rfl
    cases c with
    | leaf | cast => exact hover _
    | view s inner dims transform => cases transform <;> exact hover _

end

/-! ## The same keys -/

/-- Two axes have the same keys at the same positions. -/
structure Dimension.SameKeys (d e : Dimension) : Prop where
  length : d.length = e.length
  keyOf : ∀ i, d.index.keyOf i = e.index.keyOf i
  indexOf : ∀ key, d.index.indexOf key = e.index.indexOf key

namespace Dimension

variable {d e : Dimension} {ds es dims : List Dimension} {sources : List AxisSource}

theorem SameKeys.refl (d : Dimension) : d.SameKeys d := ⟨rfl, fun _ => rfl, fun _ => rfl⟩

theorem sameKeys_refl (ds : List Dimension) : List.Forall₂ SameKeys ds ds :=
  List.forall₂_same.2 fun d _ => SameKeys.refl d

/-- Derived axes with the same keys at the same positions find them at the same positions. -/
theorem sameKeys_of_keyOf (hd : d.index.Derived) (he : e.index.Derived) (hlength : d.length = e.length)
    (hkeys : ∀ i < d.length, d.index.keyOf i = e.index.keyOf i) : d.SameKeys e := by
  have hall : ∀ i, d.index.keyOf i = e.index.keyOf i := by
    intro i
    rcases Nat.lt_or_ge i d.length with hi | hi
    · exact hkeys i hi
    · rw [Index.keyOf_of_size_le hi, Index.keyOf_of_size_le (Nat.le_trans (Nat.le_of_eq hlength.symm) hi)]
  refine ⟨hlength, hall, fun key => Option.ext fun i => ?_⟩
  rw [hd.indexOf_eq_some_iff_keyOf, he.indexOf_eq_some_iff_keyOf, hall]

/-- Axes that show the same axes in the same way have the same keys. -/
theorem AllShow.sameKeys (h : AllShow ds dims sources) (h' : AllShow es dims sources)
    (hshape : shapeOf ds = shapeOf es) (hds : ∀ d ∈ ds, d.index.Derived)
    (hes : ∀ e ∈ es, e.index.Derived) : List.Forall₂ SameKeys ds es := by
  refine List.forall₂_iff_get.2 ⟨h.1.trans h'.1.symm, fun a ha ha' => ?_⟩
  have hs := List.getElem?_eq_getElem (h.1 ▸ ha)
  obtain ⟨part, d, hpart, hd, hshows⟩ := h.2 hs
  obtain ⟨part', d', hpart', hd', hshows'⟩ := h'.2 hs
  obtain rfl : d = d' := Option.some.inj (hd.symm.trans hd')
  obtain rfl : ds[a] = part := Option.some.inj ((List.getElem?_eq_getElem ha).symm.trans hpart)
  obtain rfl : es[a] = part' := Option.some.inj ((List.getElem?_eq_getElem ha').symm.trans hpart')
  have hlength : ds[a].length = es[a].length := by
    have hentry : (shapeOf ds)[a]? = (shapeOf es)[a]? := congrArg (·[a]?) hshape
    simpa [shapeOf, ha, ha'] using hentry
  refine sameKeys_of_keyOf (hds _ (List.getElem_mem ha)) (hes _ (List.getElem_mem ha')) hlength ?_
  intro i hi
  exact (hshows.keyOf i hi).trans (hshows'.keyOf i (hlength ▸ hi)).symm

end Dimension

section
variable {k k' : Kind} {c d : Cube k} {c' d' : Cube k'} {serial serial' : Nat}

/-- A mask marks positions of the first axis, whatever it is folded into. -/
theorem Cube.dims_mask {marks : BitSet} (hmake : c.mask serial marks = .ok d) :
    ∃ first rest, c.dims = first :: rest ∧
      d.dims = if marks.isFull then c.dims else first.mask marks :: rest := by
  unfold Cube.mask at hmake
  split at hmake
  · cases hmake
  next first rest hdims =>
  refine ⟨first, rest, hdims, ?_⟩
  split at hmake
  · cases hmake
  split at hmake
  · next hfull =>
    cases hmake
    rw [if_pos hfull]
  next hfull =>
  rw [if_neg hfull]
  split at hmake <;> cases hmake <;> rfl

/-- An operation on two cubes with the same axes gives axes with the same keys, unless it makes new
ones. -/
theorem Derivation.sameKeys_make {op : Derivation} (hop : op.viewKind ≠ .reshaped)
    (hdims : c.dims = c'.dims) (hc : c.Labelled) (hc' : c'.Labelled) (hfits : c.Fits)
    (hfits' : c'.Fits) (haxes : c.KeepsAxes) (haxes' : c'.KeepsAxes)
    (hmake : op.make serial c = .ok d) (hmake' : op.make serial' c' = .ok d') :
    List.Forall₂ Dimension.SameKeys d.dims d'.dims := by
  have hrolls : op.viewKind = .rolled ∨ op.viewKind = .flatRolled →
      List.Forall₂ Dimension.SameKeys d.dims d'.dims := by
    intro hkind
    rw [haxes.dims_of_rolls hkind hmake, haxes'.dims_of_rolls hkind hmake', hdims]
    exact Dimension.sameKeys_refl _
  have hshape : c.shape = c'.shape := congrArg shapeOf hdims
  cases op with
  | transpose =>
    cases hmake
    cases hmake'
    rw [hc.dims_transpose, hc'.dims_transpose, hdims]
    exact Dimension.sameKeys_refl _
  | roll => exact hrolls (.inl rfl)
  | rollAxes => exact hrolls (.inl rfl)
  | rollFlat => exact hrolls (.inr rfl)
  | slice accessors =>
    have hkeeps : (Derivation.slice accessors).keepsLabels = true := rfl
    have hshow := allShow_make hc hfits hkeeps hmake
    have hshow' := allShow_make hc' hfits' hkeeps hmake'
    rw [← hdims, ← hshape] at hshow'
    have hshapes : shapeOf d.dims = shapeOf d'.dims := by
      have hd : d.shape = _ := (presents hfits _ hmake).shape_eq
      have hd' : d'.shape = _ := (presents hfits' _ hmake').shape_eq
      rw [← hshape] at hd'
      exact hd.trans hd'.symm
    exact hshow.sameKeys hshow' hshapes (labelled_make hc hfits _ hmake).derived
      (labelled_make hc' hfits' _ hmake').derived
  | mask marks canonical =>
    obtain ⟨first, rest, hcdims, hddims⟩ := Cube.dims_mask hmake
    obtain ⟨first', rest', hcdims', hddims'⟩ := Cube.dims_mask hmake'
    obtain ⟨rfl, rfl⟩ := List.cons.inj (hcdims.symm.trans (hdims.trans hcdims'))
    rw [hddims, hddims', hdims]
    exact Dimension.sameKeys_refl _
  | reshape => exact absurd rfl hop

end

/-! ## The same elements -/

namespace Access.SameAt

variable {σ α : Type} {p q : Nat}

theorem symm {a b : Access σ α} (h : SameAt a b p q) : SameAt b a q p where
  get := h.get.symm
  set x := (h.set x).symm
  getNull := h.getNull.symm
  setNull x := (h.setNull x).symm

/-- Conversions reach the same elements, converted. -/
theorem convert {source : Kind} {a b : Access σ source.Elem} (h : SameAt a b p q) (target : Kind) :
    SameAt (a.convert target) (b.convert target) p q where
  get := congrArg (source.convert target <$> ·) h.get
  set x := h.set (target.convert source x)
  getNull := congrArg (Option.map (source.convert target) <$> ·) h.getNull
  setNull x := h.setNull (x.map (target.convert source))

end Access.SameAt

namespace Cube

variable {σ : Type} {k k₀ : Kind} {slot : Nat} {dims : List Dimension} {c d x y : Cube k}

/-- A cube reaches at coordinates what the cube that it presents reaches at the place of them. -/
theorem Presents.sameAt {shape : List Nat} {place : List Nat → List Nat} (h : Presents d c shape place)
    (hc : c.Fits) (slots : (k : Kind) → Nat → List Nat → Access σ k.Elem) {cs : List Nat}
    (hcs : Within shape cs) : Access.SameAt (d.access slots) (c.access slots) (offset shape cs)
      (offset c.shape (place cs)) := by
  have hd := sameAt_origin slots h.fits (p := offset shape cs) (by
    have hlt := offset_lt hcs
    rwa [size, h.shape_eq])
  rw [h.base, h.origin hcs] at hd
  exact hd.trans (sameAt_origin slots hc (offset_lt (h.within hcs))).symm

/-- Two cubes over a leaf that no call tells apart. They have the same shape and reach the same elements,
whatever gives access to the leaf. If the bulk transfers of the leaf come to single accesses up to a
likeness, every call comes to the same on both up to that. In a store that offers a cube over the leaf,
calls give the same answers and leave the same stores. -/
structure AlikeOver (k₀ : Kind) (slot : Nat) (dims : List Dimension) (x y : Cube k) : Prop where
  shape_eq : x.shape = y.shape
  sameAt : ∀ {σ : Type} (slots : (k : Kind) → Nat → List Nat → Access σ k.Elem) {p : Nat},
    p < x.size → Access.SameAt (x.access slots) (y.access slots) p p
  alike : ∀ {σ : Type} (slots : (k : Kind) → Nat → List Nat → Access σ k.Elem) {R : σ → σ → Prop},
    Likeness R → (slots k₀ slot (shapeOf dims)).Uniform R (sizeOf (shapeOf dims)) →
    (∀ {s t}, R s t → (slots k₀ slot (shapeOf dims)).Bounded s) →
    (x.access slots).Alike R x.shape (y.access slots)
  offered : ∀ {k : Kind} {c : Cube k} {s : Store} {writable : Bool}, s.Offers c writable →
    c.bottom = (k₀, slot, dims) →
    ∃ R : Store → Store → Prop, R s s ∧ (∀ {t t'}, R t t' → t.Same t') ∧
      x.elements.Alike R x.shape y.elements

/-- Through layers over a leaf, bulk transfers come to what single accesses come to, if those of the leaf
do in range. -/
structure MovesStepwise (k₀ : Kind) (slot : Nat) (dims : List Dimension) (x : Cube k) : Prop where
  moves : ∀ {σ : Type} (slots : (k : Kind) → Nat → List Nat → Access σ k.Elem) {R : σ → σ → Prop},
    (slots k₀ slot (shapeOf dims)).Uniform R (sizeOf (shapeOf dims)) → (x.access slots).LikeStepwise R

theorem Fits.movesStepwise_view {serial : Nat} {axes : List Dimension} {transform : Transform}
    (h : (view serial c axes transform).Fits) (hbottom : c.bottom = (k₀, slot, dims)) :
    MovesStepwise k₀ slot dims (view serial c axes transform) :=
  ⟨fun _ _ hleaf => (h.1.uniform hbottom hleaf).through h.2⟩

theorem Fits.movesStepwise_cast {serial : Nat} {target : Kind} (h : c.Fits)
    (hbottom : c.bottom = (k₀, slot, dims)) : MovesStepwise k₀ slot dims (cast serial c target) :=
  ⟨fun _ _ hleaf => (h.uniform hbottom hleaf).convert target⟩

/-- Layers over one leaf that show the same are alike. -/
theorem alikeOver_of_sameAt (hx : Layered (.leaf k₀ slot dims) x) (hy : Layered (.leaf k₀ slot dims) y)
    (hxmoves : MovesStepwise k₀ slot dims x) (hymoves : MovesStepwise k₀ slot dims y)
    (hshape : x.shape = y.shape)
    (hsame : ∀ {σ : Type} (slots : (k : Kind) → Nat → List Nat → Access σ k.Elem) {p : Nat},
      p < x.size → Access.SameAt (x.access slots) (y.access slots) p p) :
    AlikeOver k₀ slot dims x y := by
  obtain ⟨hxfits, hxbottom⟩ := hx.fits_and_bottom
  obtain ⟨hyfits, hybottom⟩ := hy.fits_and_bottom
  have halike : ∀ {σ : Type} (slots : (k : Kind) → Nat → List Nat → Access σ k.Elem)
      {R : σ → σ → Prop}, Likeness R →
      (slots k₀ slot (shapeOf dims)).Uniform R (sizeOf (shapeOf dims)) →
      (∀ {s t}, R s t → (slots k₀ slot (shapeOf dims)).Bounded s) →
      (x.access slots).Alike R x.shape (y.access slots) := by
    intro σ slots R hR hleaf hbounded
    have hxsize := hxfits.uniform hxbottom hleaf
    have hysize := hyfits.uniform hybottom hleaf
    have hsizes : x.size = y.size := congrArg sizeOf hshape
    refine Access.Alike.of_same hR (hxmoves.moves slots hleaf) (hymoves.moves slots hleaf)
      (fun hst => ⟨bounded hxbottom (hbounded hst), bounded hybottom (hbounded hst)⟩) ?_ ?_ ?_
      (fun p hp => hsame slots (hxsize.size_raw ▸ hp)) x.shape
    · rw [hxsize.size_raw, hysize.size_raw, hsizes]
    · rw [hxsize.size_nullable, hysize.size_nullable, hsizes]
    · rw [hxsize.size_raw, hxsize.size_nullable]
  refine ⟨hshape, hsame, halike, fun hoffers hbottom => ?_⟩
  obtain ⟨R, hR, hs, hR', huniform, hready⟩ := hoffers.likeness hbottom
  exact ⟨R, hs, hR', halike Store.access hR huniform fun hst => (hready hst).bounded⟩

end Cube

/-! ## Before and after a conversion -/

section
variable {k : Kind} {c d : Cube k} {op : Derivation} {w : Workspace}

theorem Derivation.run_ok (op : Derivation) (hmake : op.make w.serial c = .ok d) :
    ∃ w', (op.run c).run.run w = (.ok d, w') ∧ w'.store = w.store := by
  obtain ⟨w', hrun, hstore, -⟩ := Session.run_derive (fun serial => op.make serial c) hmake
  exact ⟨w', hrun, hstore⟩

theorem Derivation.run_error (op : Derivation) {e : Error} (hmake : op.make w.serial c = .error e) :
    (op.run c).run.run w = (.error e, w) :=
  Session.run_derive_error (fun serial => op.make serial c) hmake

theorem Cube.run_convertTo (c : Cube k) (target : Kind) (w : Workspace) :
    ∃ w', (c.convertTo target).run.run w = (.ok (c.convert w.serial target), w') ∧
      w'.store = w.store := by
  obtain ⟨w', hrun, hstore, -⟩ := Session.run_derive
    (fun serial => .ok (c.convert serial target)) (w := w) rfl
  exact ⟨w', hrun, hstore⟩

end

/-- A call that makes a view of a cube. -/
inductive ViewCall where
  /-- An operation with its arguments. -/
  | derive (op : Derivation)
  /-- Keeps the positions of the first axis at which a list is true. -/
  | maskBools (bs : List Bool)
  /-- Keeps the positions of the first axis at which another cube is true. -/
  | maskBy (marks : Cube .bool)

namespace ViewCall

variable {k k₀ : Kind} {slot : Nat} {dims : List Dimension} {c : Cube k}

/-- Makes the call. -/
def run (c : Cube k) : ViewCall → Session (Cube k)
  | derive op => op.run c
  | maskBools bs => Session.derive fun serial => c.mask serial (.ofBools bs)
  | maskBy marks => Session.maskBy c marks

/-- Whether a call gives the cube new axes. -/
def relabels : ViewCall → Bool
  | derive (.reshape _) => true
  | _ => false

/-- The operation that keeps the positions at which a list is true. -/
def maskOf (bs : List Bool) : Derivation :=
  .mask (.ofBools bs) (BitSet.Source.represents (.ofBools bs)).canonical

/-- What a call finds out before it makes a view: the operation to do. -/
def plan : ViewCall → Session Derivation
  | derive op => pure op
  | maskBools bs => pure (maskOf bs)
  | maskBy marks => do return maskOf (← Session.truths marks)

/-- A call does what it plans. -/
theorem run_eq (c : Cube k) (call : ViewCall) : call.run c = call.plan >>= fun op => op.run c := by
  cases call with
  | derive | maskBools => rfl
  | maskBy marks =>
    show (Session.truths marks >>= fun bs => _) = (Session.truths marks >>= fun bs => _) >>= _
    rw [bind_assoc]
    rfl

/-- What a call plans, and what that does to the store, only depends on the store. -/
theorem run_plan (call : ViewCall) {w w' : Workspace} (hstore : w.store = w'.store) :
    ∃ planned v v', call.plan.run.run w = (planned, v) ∧ call.plan.run.run w' = (planned, v') ∧
      v.store = v'.store := by
  cases call with
  | derive | maskBools => exact ⟨_, w, w', rfl, rfl, hstore⟩
  | maskBy marks =>
    have htruths : (Session.truths marks).outcome w = (Session.truths marks).outcome w' := by
      unfold Session.truths
      split
      · exact congrArg (Prod.mk _) hstore
      · show (Session.perform _).outcome w = (Session.perform _).outcome w'
        rw [Session.outcome_perform, Session.outcome_perform, hstore]
    unfold Session.outcome at htruths
    rcases hrun : (Session.truths marks).run.run w with ⟨found, v⟩
    rcases hrun' : (Session.truths marks).run.run w' with ⟨found', v'⟩
    rw [hrun, hrun'] at htruths
    obtain ⟨rfl, hstores⟩ : found = found' ∧ v.store = v'.store := Prod.mk.inj htruths
    cases found with
    | error e =>
      exact ⟨.error e, v, v', Session.run_bind_of_error hrun, Session.run_bind_of_error hrun', hstores⟩
    | ok bs =>
      exact ⟨.ok (maskOf bs), v, v', Session.run_bind_of_ok hrun, Session.run_bind_of_ok hrun', hstores⟩

/-- A call makes new axes only if it is a reshape. -/
theorem viewKind_of_plan {call : ViewCall} {op : Derivation} {w v : Workspace}
    (hrelabels : call.relabels = false) (hplan : call.plan.run.run w = (.ok op, v)) :
    op.viewKind ≠ .reshaped := by
  cases call with
  | derive op' =>
    cases hplan
    cases op with
    | reshape => cases hrelabels
    | transpose | roll | rollAxes | rollFlat | slice | mask => exact ViewKind.noConfusion
  | maskBools bs =>
    cases hplan
    exact ViewKind.noConfusion
  | maskBy marks =>
    rcases htruths : (Session.truths marks).run.run w with ⟨e | bs, u⟩
    · have hrun : (maskBy marks).plan.run.run w = _ := Session.run_bind_of_error htruths
      rw [hrun] at hplan
      cases hplan
    · have hrun : (maskBy marks).plan.run.run w = _ := Session.run_bind_of_ok htruths
      rw [hrun] at hplan
      cases hplan
      exact ViewKind.noConfusion

end ViewCall

section
variable {k k₀ : Kind} {slot : Nat} {dims : List Dimension} {c d : Cube k} {target : Kind}
  {y : Cube target} {op : Derivation} {n n' n'' m : Nat}

/-- The outcome of an operation on a conversion is that of the operation on the cube, converted. -/
theorem Derivation.alike_convert (h : Layered (.leaf k₀ slot dims) c) (hmake : op.make n c = .ok d)
    (hmake' : op.make n' (c.convert m target) = .ok y) :
    (d.convert n'' target).AlikeOver k₀ slot dims y := by
  have hfits := h.fits_and_bottom.1
  have hd := presents hfits op hmake
  have hy : y.Presents (c.convert m target) (op.shape c.shape) (op.place c.shape) :=
    presents (c := c.convert m target) hfits op hmake'
  have hshape : (d.convert n'' target).shape = y.shape := hd.shape_eq.trans hy.shape_eq.symm
  have hdlayers : Layered (.leaf k₀ slot dims) d := .derive h hmake
  have hylayers : Layered (.leaf k₀ slot dims) y := .derive (.convert h) hmake'
  obtain ⟨hdfits, hdbottom⟩ := hdlayers.fits_and_bottom
  obtain ⟨hyfits, hybottom⟩ := hylayers.fits_and_bottom
  refine Cube.alikeOver_of_sameAt (.convert hdlayers) hylayers
    (hdfits.movesStepwise_cast hdbottom) ?_ hshape fun slots p hp => ?_
  · -- what is made of a conversion has that at its base
    have hbase : y.base = c.convert m target := hy.base
    cases y with
    | leaf => cases hbase
    | view => exact hyfits.movesStepwise_view hybottom
    | cast serial inner => exact Cube.Fits.movesStepwise_cast (c := inner) hyfits hybottom
  · have hp : p < sizeOf (op.shape c.shape) := Nat.lt_of_lt_of_eq hp (congrArg sizeOf hd.shape_eq)
    have hcs := within_unravel (Nat.zero_lt_of_lt hp) (p := p)
    have hdc := hd.sameAt hfits slots hcs
    have hyc := hy.sameAt hfits slots hcs
    rw [offset_unravel hp] at hdc hyc
    exact (hdc.convert target).trans hyc.symm

/-- An operation commutes with a conversion. In workspaces with the same store, the operation before
the conversion and the operation on a conversion fail alike, or they give cubes that no call tells
apart, and whose axes have the same keys unless the operation makes new axes. -/
theorem Derivation.run_convertTo (h : Layered (.leaf k₀ slot dims) c)
    (hdims : ∀ d ∈ dims, d.index.Derived) (op : Derivation) (target : Kind) {v v' : Workspace}
    (hstore : v.store = v'.store) :
    let late := (op.run c >>= fun d => d.convertTo target).run.run v
    let early := (op.run (c.convert m target)).run.run v'
    late.2.store = early.2.store ∧
    ((∃ e, late.1 = .error e ∧ early.1 = .error e) ∨
      ∃ x y, late.1 = .ok x ∧ early.1 = .ok y ∧ x.AlikeOver k₀ slot dims y ∧
        (op.viewKind ≠ .reshaped → List.Forall₂ Dimension.SameKeys x.dims y.dims)) := by
  have hfits := h.fits_and_bottom.1
  have hcheck : (op.make v.serial c).map (fun _ => ()) = op.check c.shape :=
    make_check hfits op
  have hcheck' : (op.make v'.serial (c.convert m target)).map (fun _ => ()) = op.check c.shape :=
    make_check (c := c.convert m target) hfits op
  have hsame := hcheck.trans hcheck'.symm
  rcases hmake : op.make v.serial c with e | d <;>
    rcases hmake' : op.make v'.serial (c.convert m target) with e' | y <;>
    rw [hmake, hmake'] at hsame <;> cases hsame
  · dsimp only
    rw [Session.run_bind_of_error (op.run_error hmake), op.run_error hmake']
    exact ⟨hstore, .inl ⟨e, rfl, rfl⟩⟩
  · obtain ⟨u, hfirst, hu⟩ := op.run_ok hmake
    obtain ⟨u₁, hthen, hu₁⟩ := d.run_convertTo target u
    obtain ⟨u', hsecond, hu'⟩ := op.run_ok hmake'
    have hlabelled := h.labelled hdims
    have haxes : c.dims = (c.convert m target).dims := rfl
    have hkeys : op.viewKind ≠ .reshaped → List.Forall₂ Dimension.SameKeys d.dims y.dims := fun hop =>
      sameKeys_make hop haxes hlabelled hlabelled hfits hfits h.keepsAxes h.keepsAxes hmake hmake'
    dsimp only
    rw [Session.run_bind_of_ok hfirst, hthen, hsecond]
    exact ⟨(hu₁.trans hu).trans (hstore.trans hu'.symm),
      .inr ⟨_, y, rfl, rfl, alike_convert h hmake hmake', hkeys⟩⟩

end

namespace ViewCall

variable {k k₀ : Kind} {slot : Nat} {dims : List Dimension} {c : Cube k}

/-- Converting commutes with every call that makes a view. Whether the elements are converted after the
call or before it, the call fails alike, or it gives cubes that no call tells apart, and whose axes have
the same keys unless the call makes new axes. -/
theorem convert_commutes (h : Layered (.leaf k₀ slot dims) c) (hdims : ∀ d ∈ dims, d.index.Derived)
    (call : ViewCall) (target : Kind) (w : Workspace) :
    let late := (call.run c >>= fun d => d.convertTo target).run.run w
    let early := (c.convertTo target >>= fun d => call.run d).run.run w
    late.2.store = early.2.store ∧
    ((∃ e, late.1 = .error e ∧ early.1 = .error e) ∨
      ∃ x y, late.1 = .ok x ∧ early.1 = .ok y ∧ x.AlikeOver k₀ slot dims y ∧
        (call.relabels = false → List.Forall₂ Dimension.SameKeys x.dims y.dims)) := by
  obtain ⟨w₁, hconvert, hstore₁⟩ := c.run_convertTo target w
  simp only [run_eq, bind_assoc]
  rw [Session.run_bind_of_ok hconvert]
  -- both ways plan the same, since a conversion leaves the store as it is
  obtain ⟨planned, v, v', hplan, hplan', hstore⟩ := call.run_plan hstore₁.symm
  cases planned with
  | error e =>
    rw [Session.run_bind_of_error hplan, Session.run_bind_of_error hplan']
    exact ⟨hstore, .inl ⟨e, rfl, rfl⟩⟩
  | ok op =>
    rw [Session.run_bind_of_ok hplan, Session.run_bind_of_ok hplan']
    obtain ⟨hstores, hfail | ⟨x, y, hx, hy, halike, hkeys⟩⟩ := op.run_convertTo h hdims target hstore
    · exact ⟨hstores, .inl hfail⟩
    · exact ⟨hstores, .inr ⟨x, y, hx, hy, halike, fun hrelabels =>
        hkeys (viewKind_of_plan hrelabels hplan)⟩⟩

/-- A transposed cube that is transposed and converted is a conversion of the leaf. Converted first, it is
a view of a view, whose elements are nevertheless the same. -/
theorem convert_commutes_transposed :
    let leaf : Cube .i32 := .leaf .i32 0 [.ofLength 2, .ofLength 3]
    let c := leaf.transpose 0
    let late := ((ViewCall.derive .transpose).run c >>= fun d => d.convertTo .i64).run.run { serial := 1 }
    let early :=
      (c.convertTo .i64 >>= fun d => (ViewCall.derive .transpose).run d).run.run { serial := 1 }
    Layered leaf c ∧ (∀ d ∈ leaf.dims, d.index.Derived) ∧
      ∃ x y, late.1 = .ok x ∧ early.1 = .ok y ∧ x.depth = 0 ∧ y.depth = 1 ∧
        x.AlikeOver .i32 0 [.ofLength 2, .ofLength 3] y ∧
        List.Forall₂ Dimension.SameKeys x.dims y.dims := by
  intro leaf c late early
  have h : Layered leaf c := .derive .root (rfl : Derivation.transpose.make 0 leaf = .ok c)
  have hdims : ∀ d ∈ leaf.dims, d.index.Derived :=
    List.forall_mem_cons.2 ⟨.whole _, List.forall_mem_cons.2 ⟨.whole _, fun _ hd => nomatch hd⟩⟩
  obtain ⟨-, ⟨e, he, -⟩ | ⟨x, y, hx, hy, halike, hkeys⟩⟩ :=
    convert_commutes h hdims (.derive .transpose) .i64 { serial := 1 }
  · cases he
  · cases hx
    cases hy
    exact ⟨h, hdims, _, _, rfl, rfl, rfl, rfl, halike, hkeys rfl⟩

end ViewCall

end Orthotope
