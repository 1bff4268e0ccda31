import Orthotope.Proofs.Channel.Readable
import Orthotope.Proofs.Cube.Casting
import Orthotope.Proofs.Store.Document

/-!
# Comparing cubes

Two elements are the same if they are equal numbers or if neither is a number, which is an equivalence
(`Kind.equivalence_same`). All that comparing two cubes needs is that reads in range succeed and give the
same elements every time (`Cube.ReadsSucceed`). Then the cubes are found to have the same content just if
they have the same shape and, position by position, the same elements (`Cube.SameElements`), which is
again an equivalence, and an operation on both sides keeps it (`Cube.ReadsSucceed.sameContent_decides`).

An operation on a cube may be folded into the layers beneath it, so that whether reads of its result
succeed is a matter of the leaf. The leaf gives elements wherever the cube shows one (`Cube.Readable`): it
may do anything else when it is read, as long as it stays in states in which it gives these elements, and
it may refuse what the cube does not show. This is inherited by views and conversions
(`Cube.Readable.make`, `Cube.Readable.convert`), and every cube that a store offers is of this sort
(`Store.Offers.readable`).
-/

namespace Orthotope

/-! ## Elements that are the same -/

/-- What two numbers have in common if they are the same: how they are ordered, unless they are none. -/
def Binary.level {f : Format} (x : Binary f) : Option Int := if x.isNaN then none else some x.rank

theorem Binary.same_iff {f : Format} {x y : Binary f} :
    (x.equal y || (x.isNaN && y.isNaN)) = true ↔ x.level = y.level := by
  unfold Binary.equal Binary.level
  cases x.isNaN <;> cases y.isNaN <;> simp

/-- To be the same is an equivalence between elements. -/
theorem Kind.equivalence_same (k : Kind) : Equivalence fun x y : k.Elem => k.same x y = true := by
  have hlevel : ∀ f : Format, Equivalence fun x y : Binary f =>
      (x.equal y || (x.isNaN && y.isNaN)) = true := by
    intro f
    simp only [Binary.same_iff]
    exact ⟨fun _ => rfl, Eq.symm, Eq.trans⟩
  cases k with
  | f64 => exact hlevel _
  | f32 => exact hlevel _
  | i64 | i32 | bool =>
    simp only [Kind.same, decide_eq_true_eq]
    exact ⟨fun _ => rfl, Eq.symm, Eq.trans⟩

/-! ## Sessions that succeed -/

/-- In every workspace whose store is as an invariant says, a session gives a value and leaves such a
store. -/
def Session.Yields {α : Type} (I : Store → Prop) (m : Session α) (x : α) : Prop :=
  ∀ w : Workspace, I w.store → ∃ t, m.outcome w = (.ok x, t) ∧ I t

/-- A session yields one value. -/
theorem Session.Yields.unique {α : Type} {I : Store → Prop} {m : Session α} {x y : α} {s : Store}
    (hs : I s) (h : Session.Yields I m x) (h' : Session.Yields I m y) : x = y := by
  obtain ⟨t, hrun, -⟩ := h { store := s } hs
  obtain ⟨t', hrun', -⟩ := h' { store := s } hs
  rw [hrun] at hrun'
  exact Except.ok.inj (Prod.mk.inj hrun').1

/-! ## Cubes that can be read -/

variable {k k₀ : Kind} {slot : Nat} {dims : List Dimension} {I : Store → Prop} {s : Store}

namespace Cube

/-- The position of the leaf that a position of a cube refers to. -/
def leafPosition : {k : Kind} → Cube k → Nat → Nat
  | _, leaf .., p => p
  | _, view _ inner dims transform, p => inner.leafPosition ((inner.viewOver dims transform).position p)
  | _, cast _ inner _, p => inner.leafPosition p

variable {a b c d : Cube k}

theorem leafPosition_origin (c : Cube k) (p : Nat) :
    c.base.leafPosition (c.origin p) = c.leafPosition p := by
  induction c generalizing p with
  | leaf | cast => rfl
  | view serial inner dims transform ih => exact ih _

theorem Fits.leafPosition_lt {p : Nat} (h : c.Fits) (hbottom : c.bottom = (k₀, slot, dims))
    (hp : p < c.size) : c.leafPosition p < sizeOf (shapeOf dims) := by
  induction c generalizing p with
  | leaf =>
    obtain ⟨rfl, rfl, rfl⟩ : _ ∧ _ ∧ _ := by simpa [bottom] using hbottom
    exact hp
  | view serial inner dims transform ih => exact ih h.1 hbottom (h.2.position_lt hp)
  | cast serial inner target ih => exact ih h hbottom hp

/-- Through a stack of layers, elements are given wherever the leaf gives one. -/
theorem Fits.gives {σ : Type} {J : σ → Prop} {ok : Nat → Prop} {f : Nat → k₀.Elem} (h : c.Fits)
    (slots : (k : Kind) → Nat → List Nat → Access σ k.Elem) (hbottom : c.bottom = (k₀, slot, dims))
    (hleaf : (slots k₀ slot (shapeOf dims)).raw.Gives J ok f) :
    ∃ g, (c.access slots).raw.Gives J (fun p => p < c.size ∧ ok (c.leafPosition p)) g := by
  induction c with
  | leaf =>
    obtain ⟨rfl, rfl, rfl⟩ : _ ∧ _ ∧ _ := by simpa [bottom] using hbottom
    exact ⟨f, hleaf.mono fun p hp => hp.2⟩
  | view serial inner dims transform ih =>
    obtain ⟨g, hg⟩ := ih h.1 hbottom
    exact ⟨_, (hg.through h.2).mono fun p hp => ⟨hp.1, h.2.position_lt hp.1, hp.2⟩⟩
  | cast serial inner target ih =>
    obtain ⟨g, hg⟩ := ih h hbottom
    exact ⟨_, hg.convert⟩

/-- In the states of an invariant, reads of a cube that are in range succeed. -/
def ReadsSucceed (I : Store → Prop) (c : Cube k) : Prop :=
  ∃ g, c.elements.raw.Gives I (· < c.size) g

/-- In the states of an invariant, the leaf under a cube gives elements wherever the cube shows one. -/
structure Readable (I : Store → Prop) (c : Cube k) : Prop where
  fits : c.Fits
  leaf : ∃ (k₀ : Kind) (slot : Nat) (dims : List Dimension) (ok : Nat → Prop) (f : Nat → k₀.Elem),
    c.bottom = (k₀, slot, dims) ∧ (Store.access k₀ slot (shapeOf dims)).raw.Gives I ok f ∧
      ∀ p < c.size, ok (c.leafPosition p)

namespace Readable

theorem readsSucceed (h : Readable I c) : ReadsSucceed I c := by
  obtain ⟨k₀, slot, dims, ok, f, hbottom, hleaf, hok⟩ := h.leaf
  obtain ⟨g, hg⟩ := h.fits.gives Store.access hbottom hleaf
  exact ⟨g, hg.mono fun p hp => ⟨hp, hok p hp⟩⟩

/-- What shows some of the elements of a cube that can be read can be read. -/
theorem of_presents {shape : List Nat} {place : List Nat → List Nat} (h : Readable I c)
    (hd : Presents d c shape place) : Readable I d := by
  obtain ⟨k₀, slot, dims, ok, f, hbottom, hleaf, hok⟩ := h.leaf
  refine ⟨hd.fits, k₀, slot, dims, ok, f, ?_, hleaf, fun p hp => ?_⟩
  · rw [← bottom_base, hd.base, bottom_base, hbottom]
  · -- What is shown at this position is what the cube shows at another one.
    rw [size, hd.shape_eq] at hp
    have hcs : Within shape (unravel shape p) := within_unravel (Nat.zero_lt_of_lt hp)
    have horigin := hd.origin hcs
    rw [offset_unravel hp] at horigin
    rw [← leafPosition_origin, hd.base, horigin, leafPosition_origin]
    exact hok _ (offset_lt (hd.within hcs))

theorem make {op : Derivation} {serial : Nat} (h : Readable I c) (hmake : op.make serial c = .ok d) :
    Readable I d :=
  h.of_presents (Derivation.presents h.fits op hmake)

theorem convert (h : Readable I c) (serial : Nat) (target : Kind) :
    Readable I (c.convert serial target) := ⟨h.fits, h.leaf⟩

end Readable

end Cube

/-- A stretch of a list, entry by entry. -/
theorem Channel.map_getD_range' {α : Type} {xs : List α} {p n : Nat} (default : α)
    (hle : p + n ≤ xs.length) :
    (List.range' p n).map (xs.getD · default) = (xs.drop p).take n := by
  have hentry : ∀ {q x}, xs[q]? = some x → xs.getD q default = id x := fun hx => by
    rw [List.getD_eq_getElem?_getD, hx]
    rfl
  rw [map_range'_eq_stretch hentry hle, List.map_id]

namespace Store

variable {c : Cube k} {xs : List k.Elem} {writable : Bool}

/-- A cube that has a list of elements gives them, and reading leaves the store as it is. -/
theorem Lists.gives (h : s.Lists c xs) :
    c.elements.raw.Gives (· = s) (· < c.size) (xs.getD · k.null) where
  lt hp := Nat.lt_of_lt_of_eq hp c.size_raw_elements.symm
  get {p} hp := by
    rintro _ rfl
    have hp' : p < xs.length := Nat.lt_of_lt_of_eq hp h.length.symm
    rw [List.getD_eq_getElem?_getD, List.getElem?_eq_getElem hp']
    exact ⟨_, h.get hp', rfl⟩
  read {p n} hn hall := by
    rintro _ rfl
    have hle : p + n ≤ xs.length := by
      have hlast := hall (p + n - 1) (by omega) (by omega)
      have hlength := h.length
      omega
    rw [Channel.map_getD_range' k.null hle]
    exact ⟨_, h.read hle, rfl⟩

/-- A cube that is offered can be read, and reading leaves the store as it is. -/
theorem Offers.readable (h : s.Offers c writable) : c.Readable (· = s) := by
  have hleaf : ∃ (k₀ : Kind) (slot : Nat) (dims : List Dimension) (writable' : Bool),
      c.bottom = (k₀, slot, dims) ∧ s.Offers (.leaf k₀ slot dims) writable' := by
    cases h with
    | made source make reach layered =>
      exact ⟨_, _, _, _, layered.fits_and_bottom.2, .made source make reach .root⟩
    | readOnly make reach layered =>
      exact ⟨_, _, _, _, layered.fits_and_bottom.2, .readOnly make reach .root⟩
  obtain ⟨k₀, slot, dims, _, hbottom, hoffers⟩ := hleaf
  obtain ⟨xs, hxs⟩ := hoffers.exists_lists
  have hfits := h.fits_and_bottom.1
  exact ⟨hfits, k₀, slot, dims, _, _, hbottom, hxs.gives, fun p hp => hfits.leafPosition_lt hbottom hp⟩

/-- A cube that is offered yields the element that a single read finds, which leaves the store as it is. -/
theorem Offers.yields_get (h : s.Offers c writable) {p : Nat} {x : k.Elem} (hp : p < c.size)
    (hvalue : ((c.elements.raw.get p).outcome s).1 = .ok x) :
    Act.Yields (· = s) (c.elements.raw.get p) x := by
  rintro _ rfl
  obtain ⟨y, hget⟩ := h.ready.get (Nat.lt_of_lt_of_eq hp c.size_raw_elements.symm)
  rw [hget] at hvalue ⊢
  exact ⟨_, Prod.ext hvalue rfl, rfl⟩

end Store

/-! ## Cubes with the same elements -/

namespace Cube

variable {a b d a' b' : Cube k}

/-- Two cubes have the same shape, and at every position single reads yield elements that are the same. -/
structure SameElements (I : Store → Prop) (a b : Cube k) : Prop where
  shape_eq : a.shape = b.shape
  same : ∀ p < a.size, ∃ x y, Act.Yields I (a.elements.raw.get p) x ∧
    Act.Yields I (b.elements.raw.get p) y ∧ k.same x y = true

namespace SameElements

theorem size_eq (h : SameElements I a b) : a.size = b.size := congrArg sizeOf h.shape_eq

theorem refl (h : a.ReadsSucceed I) : SameElements I a a := by
  obtain ⟨f, hf⟩ := h
  exact ⟨rfl, fun p hp => ⟨f p, f p, hf.get hp, hf.get hp, k.equivalence_same.refl _⟩⟩

theorem symm (h : SameElements I a b) : SameElements I b a := by
  refine ⟨h.shape_eq.symm, fun p hp => ?_⟩
  obtain ⟨x, y, hx, hy, hsame⟩ := h.same p (h.size_eq ▸ hp)
  exact ⟨y, x, hy, hx, k.equivalence_same.symm hsame⟩

theorem trans (hs : I s) (h : SameElements I a b) (h' : SameElements I b d) : SameElements I a d := by
  refine ⟨h.shape_eq.trans h'.shape_eq, fun p hp => ?_⟩
  obtain ⟨x, y, hx, hy, hsame⟩ := h.same p hp
  obtain ⟨y', z, hy', hz, hsame'⟩ := h'.same p (h.size_eq ▸ hp)
  obtain rfl := hy.unique hs hy'
  exact ⟨x, z, hx, hz, k.equivalence_same.trans hsame hsame'⟩

/-- What shows the same places of cubes with the same elements has the same elements. -/
theorem of_presents {shape : List Nat} {place : List Nat → List Nat} (h : SameElements I a b)
    (ha : a.Fits) (hb : b.Fits) (ha' : Presents a' a shape place) (hb' : Presents b' b shape place) :
    SameElements I a' b' := by
  refine ⟨ha'.shape_eq.trans hb'.shape_eq.symm, fun p hp => ?_⟩
  rw [size, ha'.shape_eq] at hp
  have hcs : Within shape (unravel shape p) := within_unravel (Nat.zero_lt_of_lt hp)
  have hget := (ha'.sameAt ha Store.access hcs).get
  have hget' := (hb'.sameAt hb Store.access hcs).get
  rw [offset_unravel hp] at hget hget'
  obtain ⟨x, y, hx, hy, hsame⟩ := h.same _ (offset_lt (ha'.within hcs))
  refine ⟨x, y, ?_, ?_, hsame⟩
  · unfold elements
    rw [hget]
    exact hx
  · unfold elements
    rw [hget', ← h.shape_eq]
    exact hy

/-- An operation on both of two cubes with the same elements succeeds on both or fails alike, and what it
makes has the same elements. -/
theorem make (h : SameElements I a b) (ha : a.Fits) (hb : b.Fits) (op : Derivation)
    (serial serial' : Nat) :
    (op.make serial a).map (fun _ => ()) = (op.make serial' b).map (fun _ => ()) ∧
      ∀ {a' b'}, op.make serial a = .ok a' → op.make serial' b = .ok b' → SameElements I a' b' := by
  refine ⟨?_, fun hmake hmake' => ?_⟩
  · rw [Derivation.make_check ha, Derivation.make_check hb, h.shape_eq]
  · have hpresents := Derivation.presents hb op hmake'
    rw [← h.shape_eq] at hpresents
    exact h.of_presents ha hb (Derivation.presents ha op hmake) hpresents

end SameElements

namespace ReadsSucceed

/-- Comparing two cubes tells whether they have the same shape and the same elements. -/
theorem yields_sameContent (hs : I s) (ha : ReadsSucceed I a) (hb : ReadsSucceed I b) :
    ∃ v, Session.Yields I (Session.sameContent a b) v ∧ (v = true ↔ SameElements I a b) := by
  by_cases hshape : a.shape = b.shape
  · obtain ⟨f, hf⟩ := ha
    obtain ⟨g, hg⟩ := hb
    have hsize : a.size = b.size := congrArg sizeOf hshape
    have hrun : Session.sameContent a b =
        Session.perform (a.elements.raw.sameContent b.elements.raw k.same) := by
      unfold Session.sameContent
      rw [if_neg (not_not_intro hshape)]
    -- The answer does not depend on the workspace, since the elements do not.
    refine ⟨decide (∀ p < a.size, k.same (f p) (g p) = true), fun w hw => ?_, ?_⟩
    · rw [← a.size_raw_elements] at hf hsize
      rw [← b.size_raw_elements] at hg hsize
      obtain ⟨v, t, hout, ht, hv⟩ := hf.sameContent hg hsize k.same hw
      rw [a.size_raw_elements] at hv
      refine ⟨t, ?_, ht⟩
      rw [hrun, Session.outcome_perform, hout, Bool.eq_iff_iff.2 (hv.trans decide_eq_true_iff.symm)]
    · rw [decide_eq_true_iff]
      constructor
      · exact fun h => ⟨hshape, fun p hp => ⟨f p, g p, hf.get hp, hg.get (hsize ▸ hp), h p hp⟩⟩
      · intro h p hp
        obtain ⟨x, y, hx, hy, hsame⟩ := h.same p hp
        rwa [(hf.get hp).unique hs hx, (hg.get (hsize ▸ hp)).unique hs hy]
  · have hother : ¬ SameElements I a b := fun h => hshape h.shape_eq
    refine ⟨false, fun w hw => ⟨w.store, ?_, hw⟩, iff_of_false Bool.false_ne_true hother⟩
    unfold Session.sameContent
    rw [if_pos hshape]
    rfl

theorem yields_true_iff (hs : I s) (ha : ReadsSucceed I a) (hb : ReadsSucceed I b) :
    Session.Yields I (Session.sameContent a b) true ↔ SameElements I a b := by
  obtain ⟨v, hv, hiff⟩ := ha.yields_sameContent hs hb
  rw [← hiff]
  exact ⟨fun h => hv.unique hs h, fun h => h ▸ hv⟩

/-- Comparing two cubes whose reads in range succeed tells whether they have the same shape and whether at
every position both elements are equal or no numbers. So every such cube has the same content as itself,
and the answer is that of an equivalence. If two cubes have the same content, an operation on both succeeds
on both or fails alike, and if reads of what it makes succeed, that has the same content. They do if the
leaves can be read. -/
theorem sameContent_decides (hs : I s) (ha : ReadsSucceed I a) (hb : ReadsSucceed I b) :
    (∃ v, Session.Yields I (Session.sameContent a b) v ∧ (v = true ↔ SameElements I a b)) ∧
      Session.Yields I (Session.sameContent a a) true ∧
      (Session.Yields I (Session.sameContent a b) true →
        Session.Yields I (Session.sameContent b a) true) ∧
      (∀ d : Cube k, ReadsSucceed I d → Session.Yields I (Session.sameContent a b) true →
        Session.Yields I (Session.sameContent b d) true →
        Session.Yields I (Session.sameContent a d) true) ∧
      (a.Fits → b.Fits → Session.Yields I (Session.sameContent a b) true →
        ∀ (op : Derivation) (serial serial' : Nat),
          (op.make serial a).map (fun _ => ()) = (op.make serial' b).map (fun _ => ()) ∧
          ∀ a' b', op.make serial a = .ok a' → op.make serial' b = .ok b' →
            (ReadsSucceed I a' → ReadsSucceed I b' →
              Session.Yields I (Session.sameContent a' b') true) ∧
            (a.Readable I → a'.Readable I ∧ ReadsSucceed I a') ∧
            (b.Readable I → b'.Readable I ∧ ReadsSucceed I b')) := by
  refine ⟨ha.yields_sameContent hs hb, (ha.yields_true_iff hs ha).2 (.refl ha), fun h => ?_,
    fun d hd h h' => ?_, fun hfits hfits' h op serial serial' => ?_⟩
  · rw [ha.yields_true_iff hs hb] at h
    rw [hb.yields_true_iff hs ha]
    exact h.symm
  · rw [ha.yields_true_iff hs hb] at h
    rw [hb.yields_true_iff hs hd] at h'
    rw [ha.yields_true_iff hs hd]
    exact h.trans hs h'
  · rw [ha.yields_true_iff hs hb] at h
    obtain ⟨halike, hmade⟩ := h.make hfits hfits' op serial serial'
    refine ⟨halike, fun a' b' hmake hmake' => ⟨fun ha' hb' => ?_, fun hread => ?_, fun hread => ?_⟩⟩
    · exact (ha'.yields_true_iff hs hb').2 (hmade hmake hmake')
    · exact ⟨hread.make hmake, (hread.make hmake).readsSucceed⟩
    · exact ⟨hread.make hmake', (hread.make hmake').readsSucceed⟩

/-- A cube has the same content as a transposed conversion of another one that has a different zero and
another pattern for what is no number, also if both are transposed. Not so if only one is. -/
theorem sameContent_decides_zero_and_no_number :
    let source : LeafSource .f64 := .dense [.ofLength 2, .ofLength 1] (.ofList [⟨0x7FF0000000000001⟩,
      .zero .double true])
    let source' : LeafSource .f32 := .dense [.ofLength 1, .ofLength 2] (.ofList [.nan .single,
      .zero .single false])
    let v := (source.make.run.run {}).2
    let w := (source'.make.run.run v).2
    let a : Cube .f64 := .leaf .f64 0 [.ofLength 2, .ofLength 1]
    let b := ((Cube.leaf .f32 1 [.ofLength 1, .ofLength 2]).convert 0 .f64).transpose 1
    w.store.Offers a true ∧ w.store.Offers b true ∧
      Session.Yields (· = w.store) (Session.sameContent a b) true ∧
      Session.Yields (· = w.store) (Session.sameContent (a.transpose 2) (b.transpose 3)) true ∧
      Session.Yields (· = w.store) (Session.sameContent a (b.transpose 3)) false := by
  intro source source' v w a b
  have ha : w.store.Offers a true :=
    .made source (rfl : source.make.run.run {} = (.ok a, v)) (.add .refl _) .root
  have hlayered : Layered (.leaf .f32 1 [.ofLength 1, .ofLength 2]) b :=
    .derive (.convert .root) (rfl : Derivation.transpose.make 1 _ = .ok b)
  have hb : w.store.Offers b true :=
    .made source' (rfl : source'.make.run.run v = (.ok (.leaf .f32 1 _), w)) .refl hlayered
  have hread := ha.readable.readsSucceed
  have hread' := hb.readable.readsSucceed
  have hvalue : ∀ p < 2, ∃ x y, ((a.elements.raw.get p).outcome w.store).1 = .ok x ∧
      ((b.elements.raw.get p).outcome w.store).1 = .ok (Kind.convert .f32 .f64 y) ∧
      Kind.f64.same x (Kind.convert .f32 .f64 y) = true := by
    intro p hp
    match p, hp with
    | 0, _ => exact ⟨⟨0x7FF0000000000001⟩, Binary.nan .single, rfl, rfl, by decide⟩
    | 1, _ => exact ⟨Binary.zero .double true, Binary.zero .single false, rfl, rfl, by decide⟩
  have hsame : SameElements (· = w.store) a b := by
    refine ⟨rfl, fun p hp => ?_⟩
    obtain ⟨x, y, hx, hy, hxy⟩ := hvalue p hp
    exact ⟨x, _, ha.yields_get hp hx, hb.yields_get hp hy, hxy⟩
  obtain ⟨⟨x, hx, hdecides⟩, -, -, -, hkept⟩ := sameContent_decides (I := (· = w.store)) rfl hread hread'
  have htrue : Session.Yields (· = w.store) (Session.sameContent a b) true := hdecides.2 hsame ▸ hx
  obtain ⟨-, hmade⟩ := hkept ha.fits_and_bottom.1 hb.fits_and_bottom.1 htrue .transpose 2 3
  obtain ⟨htransposed, hreadable, hreadable'⟩ := hmade _ _ rfl rfl
  obtain ⟨-, hread₁⟩ := hreadable ha.readable
  obtain ⟨-, hread₂⟩ := hreadable' hb.readable
  obtain ⟨⟨y, hy, hdecides'⟩, -⟩ := sameContent_decides (I := (· = w.store)) rfl hread hread₂
  have hfalse : y = false := Bool.eq_false_iff.2 fun h => absurd (hdecides'.1 h).shape_eq (by decide)
  exact ⟨ha, hb, htrue, htransposed hread₁ hread₂, hfalse ▸ hy⟩

end ReadsSucceed

end Cube

end Orthotope
