import Orthotope.Proofs.Store.Comparing

/-!
# Copies of cubes in new storage

What is read of a cube depends only on the storage of its leaf and on the files
(`Store.Lists.elsewhere`), so that writing to another slot does not matter to it. While elements are
written to new dense storage, the storage has those of the cube up to some position (`Store.Receives`).
Each write of a stretch moves this position on (`Store.Receives.write`), whether the stretch is a block of
a copy or all elements at once.

So what is read of a cube can be put into new storage and reproduces the cube (`Store.Reproduces`): in a
copy with the same axes, block by block (`Session.toDense`), and in a cube of the same shape, chunked in any
way, to which the list of elements is written (`Session.rewritten`). That is `Store.Offers.reproduced`.
-/

namespace Orthotope

variable {k k₀ : Kind} {slot : Nat} {dims : List Dimension} {s t : Store} {c d : Cube k}
  {xs : List k.Elem} {writable : Bool}

/-! ## Reading beside other storage -/

namespace Store

/-- Two stores have the same storage in a slot, and the same files. -/
def SameThere (k : Kind) (slot : Nat) (s t : Store) : Prop :=
  s.leaf? k slot = t.leaf? k slot ∧ s.files = t.files

/-- What is done in a slot comes to the same if the same is there. -/
theorem SameThere.perform {α : Type} (h : SameThere k slot s t) (shape : List Nat) (absent : α)
    (ask : {σ : Type} → Access σ k.Elem → Effect σ α) :
    ((perform slot shape absent ask).run s).value = ((perform slot shape absent ask).run t).value ∧
      SameThere k slot ((perform slot shape absent ask).run s).state
        ((perform slot shape absent ask).run t).state := by
  obtain ⟨hleaf, hfiles⟩ := h
  unfold Effect.run
  cases hs : s.leaf? k slot with
  | none =>
    rw [perform_absent hs, perform_absent (hleaf.symm.trans hs)]
    exact ⟨rfl, hleaf, hfiles⟩
  | some leaf =>
    have ht : t.leaf? k slot = some leaf := hleaf.symm.trans hs
    rw [perform_eq hs, perform_eq ht, hfiles]
    exact ⟨rfl, (leaf?_restore hs).trans (leaf?_restore ht).symm, rfl⟩

/-- Reading a slot comes to the same if the same is there. -/
theorem readsLike_sameThere (k : Kind) (slot : Nat) (shape : List Nat) :
    (access k slot shape).raw.ReadsLike (SameThere k slot) id (access k slot shape).raw where
  size := rfl
  get p s t h := by
    obtain ⟨hvalue, hstate⟩ := h.perform shape missing fun a => (a.raw.get p).run
    exact ⟨(congrFun Except.map_id _).trans hvalue, hstate⟩
  read p n s t h := by
    obtain ⟨hvalue, hstate⟩ := h.perform shape ⟨[], missing⟩ fun a => a.raw.read p n
    refine ⟨Eq.trans ?_ hvalue, hstate⟩
    rw [Transfer.map, List.map_id]
    rfl

end Store

/-- Reading a cube comes to the same if the same is in the slot of its leaf. -/
theorem Cube.readsLike_sameThere (hbottom : c.bottom = (k₀, slot, dims)) :
    c.elements.raw.ReadsLike (Store.SameThere k₀ slot) id c.elements.raw := by
  induction c with
  | leaf =>
    obtain ⟨rfl, rfl, rfl⟩ : _ ∧ _ ∧ _ := by simpa [bottom] using hbottom
    exact Store.readsLike_sameThere ..
  | view serial inner dims transform ih => exact (ih hbottom).through _ _ _
  | @cast source serial inner target ih =>
    have hid : ∀ x, id (source.convert target x) = source.convert target (id x) := fun _ => rfl
    exact (ih hbottom).convert hid _ _ _ _

namespace Store

theorem Reaches.trans {u : Store} (h : s.Reaches t) (h' : t.Reaches u) : s.Reaches u := by
  induction h' with
  | refl => exact h
  | request _ c r ih => exact .request ih c r
  | add _ content ih => exact .add ih content
  | files _ grown ih => exact .files ih grown

/-- A cube stays on offer. -/
theorem Offers.reaches (h : s.Offers c writable) (hreach : s.Reaches t) : t.Offers c writable := by
  cases h with
  | made source make reach layered => exact .made source make (reach.trans hreach) layered
  | readOnly make reach layered => exact .readOnly make (reach.trans hreach) layered

/-- There is storage under a cube that is offered. -/
theorem Offers.exists_leaf (h : s.Offers c writable) (hbottom : c.bottom = (k₀, slot, dims)) :
    ∃ leaf : Leaf k₀, s.leaf? k₀ slot = some leaf := by
  cases h with
  | made source hmake hreach hlayered =>
    obtain ⟨_, _, hleaf, hsound⟩ := source.sound_make hmake
    cases hleaf
    obtain ⟨rfl, rfl, rfl⟩ : _ ∧ _ ∧ _ := by
      simpa using hlayered.fits_and_bottom.2.symm.trans hbottom
    obtain ⟨leaf, hleaf, -⟩ := hreach.sound hsound
    exact ⟨leaf, hleaf⟩
  | readOnly hmake hreach hlayered =>
    obtain ⟨rfl, rfl, rfl⟩ : _ ∧ _ ∧ _ := by
      simpa using hlayered.fits_and_bottom.2.symm.trans hbottom
    obtain ⟨leaf, hleaf, -⟩ := hreach.has (Leaf.lasting_writable false) (has_readOnly hmake)
    exact ⟨leaf, hleaf⟩

/-- A cube has the same list of elements if the same is in the slot of its leaf. -/
theorem Lists.elsewhere (h : s.Lists c xs) (ht : t.Offers c writable)
    (hbottom : c.bottom = (k₀, slot, dims)) (hsame : SameThere k₀ slot s t) : t.Lists c xs := by
  -- The cube has some list, since it is offered, and single reads tell that it is this one.
  obtain ⟨ys, hys⟩ := ht.exists_lists
  have hvalue : ∀ p < c.size,
      ((c.elements.raw.get p).outcome t).1 = ((c.elements.raw.get p).outcome s).1 := by
    intro p _
    have hget := ((Cube.readsLike_sameThere hbottom).get p s t hsame).1
    rw [Except.map_id] at hget
    exact hget.symm
  obtain rfl := hys.unique h rfl hvalue
  exact hys

end Store

/-! ## Writing to new storage -/

namespace Channel

variable {σ α : Type}

/-- What a copy does with one block of the source. -/
def copyBlock (c : Channel σ α) (pos : Nat) (xs : List α) : Act σ Nat := do
  c.write pos xs
  return pos + xs.length

theorem copyFrom_eq (c source : Channel σ α) :
    c.copyFrom source = (source.foldBlocks c.copyBlock 0 >>= fun _ => pure ()) := rfl

end Channel

namespace Store

/-- In a store, a cube that is offered has a list of elements, and dense storage for as many elements, in a
slot of its own, has the same elements before a position. -/
structure Receives (s : Store) (c : Cube k) (xs : List k.Elem) (copy : Nat) (dims : List Dimension)
    (shift pos : Nat) : Prop where
  offers : ∃ writable, s.Offers c writable
  copy_offers : s.Offers (.leaf k copy dims) true
  other : c.bottom.2.1 ≠ copy
  size : c.size = sizeOf (shapeOf dims)
  lists : s.Lists c xs
  keeps : ∃ zs, s.KeepsList k copy (shapeOf dims) shift zs ∧ zs.take pos = xs.take pos

/-- The storage has room for the list. -/
theorem Receives.length_eq {copy shift pos : Nat} {zs : List k.Elem}
    (h : s.Receives c xs copy dims shift pos) (hkeeps : s.KeepsList k copy (shapeOf dims) shift zs) :
    zs.length = xs.length :=
  hkeeps.1.trans (h.size.symm.trans h.lists.length.symm)

/-- Requests to a slot with dense storage leave the other slots as they are. -/
theorem KeepsList.sameThere {shape : List Nat} {copy shift : Nat} (h : s.KeepsList k copy shape shift xs)
    (hother : slot ≠ copy) (r : Access.Request k.Elem) :
    SameThere k₀ slot s (((access k copy shape).answer r).run s).state := by
  obtain ⟨-, content, hleaf, -⟩ := h
  rw [(backs_dense hleaf).answer]
  exact ⟨(leaf?_restore_of_ne hother.symm _).symm, rfl⟩

/-- Writing a stretch to a dense cube puts it there, and leaves other slots as they are. -/
theorem KeepsList.write {copy shift pos : Nat} {ys : List k.Elem}
    (h : s.KeepsList k copy (shapeOf dims) shift xs) (hle : pos + ys.length ≤ xs.length) :
    ∃ t, ((Cube.leaf k copy dims).elements.raw.write pos ys).outcome s = (.ok (), t) ∧ s.Reaches t ∧
      (∀ (k₀ : Kind) (slot : Nat), slot ≠ copy → SameThere k₀ slot s t) ∧
      t.KeepsList k copy (shapeOf dims) shift (xs.take pos ++ ys ++ xs.drop (pos + ys.length)) := by
  let r : Access.Request k.Elem := .raw (.write pos ys)
  have hlist : r.onList k.null xs =
      (.raw (.done (.ok ())), xs.take pos ++ ys ++ xs.drop (pos + ys.length)) := by
    simp [r, Access.Request.onList, Channel.Request.onList, hle]
  obtain ⟨hvalue, hkeeps⟩ := h.answer r
  rw [hlist] at hvalue hkeeps
  have hstate : (((access k copy (shapeOf dims)).answer r).run s).state =
      (((access k copy (shapeOf dims)).raw.write pos ys).run.run s).state := by
    simp [r, Access.answer, Channel.answer]
  simp only [r, Access.answer, Channel.answer, Effect.run_map] at hvalue
  refine ⟨_, Prod.ext (Channel.Answer.done.inj (Access.Answer.raw.inj hvalue)) hstate.symm, ?_,
    fun k₀ slot hother => h.sameThere hother r, hkeeps⟩
  exact .request .refl (.leaf k copy dims) r

section
variable {copy shift pos n : Nat}

theorem length_stretch (hle : pos + n ≤ xs.length) : ((xs.drop pos).take n).length = n := by
  rw [List.length_take, List.length_drop]
  omega

/-- Once the next stretch of the list is written, the storage has the elements before its end. -/
theorem Receives.write (h : s.Receives c xs copy dims shift pos) (hle : pos + n ≤ xs.length) :
    let d := (Cube.leaf k copy dims).elements.raw
    ∃ t, (d.write pos ((xs.drop pos).take n)).outcome s = (.ok (), t) ∧
      t.Receives c xs copy dims shift (pos + n) := by
  intro d
  obtain ⟨writable, hoffers⟩ := h.offers
  obtain ⟨zs, hkeeps, htaken⟩ := h.keeps
  have hzs := h.length_eq hkeeps
  have hle' : pos + ((xs.drop pos).take n).length ≤ zs.length := by
    rw [length_stretch hle, hzs]
    exact hle
  obtain ⟨t, hrun, hreach, hothers, hkeeps'⟩ := hkeeps.write hle'
  -- The leaf of the cube is in another slot, so that the cube keeps its list.
  have hlists := h.lists.elsewhere (hoffers.reaches hreach) rfl (hothers _ _ h.other)
  refine ⟨t, hrun, ⟨writable, hoffers.reaches hreach⟩, h.copy_offers.reaches hreach, h.other, h.size,
    hlists, _, hkeeps', ?_⟩
  rw [htaken, ← List.take_add, List.take_left' (List.length_take_of_le hle)]

/-- A block of a copy is the next stretch. -/
theorem Receives.copyBlock (h : s.Receives c xs copy dims shift pos) (hle : pos + n ≤ xs.length) :
    let d := (Cube.leaf k copy dims).elements.raw
    ∃ t, (do d.copyBlock pos (← c.elements.raw.readSpan ⟨pos, n⟩)).outcome s = (.ok (pos + n), t) ∧
      t.Receives c xs copy dims shift (pos + n) := by
  intro d
  obtain ⟨t, hwrite, h'⟩ := h.write hle
  refine ⟨t, ?_, h'⟩
  rw [Act.outcome_bind, h.lists.read hle, Act.resume_ok, Channel.copyBlock, Act.outcome_bind, hwrite,
    length_stretch hle]
  rfl

/-- Copying block by block, and no matter where the blocks end, puts the whole list into the storage. -/
theorem Receives.copyFrom (h : s.Receives c xs copy dims shift 0) :
    ∃ t, ((Cube.leaf k copy dims).elements.raw.copyFrom c.elements.raw).outcome s = (.ok (), t) ∧
      t.Receives c xs copy dims shift xs.length := by
  have hlength := h.lists.size_raw
  let d := (Cube.leaf k copy dims).elements.raw
  have hstep : ∀ {pos n acc s}, 0 < n → pos + n ≤ c.elements.raw.size →
      acc = pos ∧ s.Receives c xs copy dims shift pos →
      ∃ acc' t, (do d.copyBlock acc (← c.elements.raw.readSpan ⟨pos, n⟩)).outcome s = (.ok acc', t) ∧
        acc' = pos + n ∧ t.Receives c xs copy dims shift (pos + n) := by
    rintro _ n pos s - hle ⟨rfl, h⟩
    obtain ⟨t, hrun, h'⟩ := h.copyBlock (hlength ▸ hle)
    exact ⟨_, t, hrun, rfl, h'⟩
  obtain ⟨last, t, hrun, -, h'⟩ := Channel.foldBlocks_rule
    (P := fun pos acc s => acc = pos ∧ Receives s c xs copy dims shift pos) hstep ⟨rfl, h⟩
  refine ⟨t, ?_, hlength ▸ h'⟩
  rw [Channel.copyFrom_eq, Act.outcome_bind, hrun]
  rfl

end

/-! ## Copies -/

/-- In a store, a cube and a copy of it have the same shape and the same list of elements, and to compare
either with the other finds the same content. -/
structure Reproduces (s : Store) (c copy : Cube k) (xs : List k.Elem) : Prop where
  shape_eq : copy.shape = c.shape
  lists : s.Lists c xs
  lists_copy : s.Lists copy xs
  same : Session.Yields (· = s) (Session.sameContent c copy) true
  same_copy : Session.Yields (· = s) (Session.sameContent copy c) true

/-- Cubes of the same shape with the same list of elements are found to have the same content. -/
theorem Lists.yields_sameContent (h : s.Lists c xs) (h' : s.Lists d xs) (hshape : c.shape = d.shape) :
    Session.Yields (· = s) (Session.sameContent c d) true := by
  have hread : c.ReadsSucceed (· = s) := ⟨_, h.gives⟩
  have hread' : d.ReadsSucceed (· = s) := ⟨_, h'.gives⟩
  have hsize : c.size = d.size := congrArg sizeOf hshape
  refine (hread.yields_true_iff (I := (· = s)) rfl hread').2 ⟨hshape, fun p hp => ?_⟩
  exact ⟨_, _, h.gives.get hp, h'.gives.get (hsize ▸ hp), k.equivalence_same.refl _⟩

/-- All elements of a cube at once are its list. -/
theorem Lists.outcome_toList (h : s.Lists c xs) : c.elements.raw.toList.outcome s = (.ok xs, s) := by
  rw [Channel.toList, h.size_raw, h.read (Nat.le_of_eq (Nat.zero_add _)), List.drop_zero, List.take_length]

theorem Lists.reproduces (h : s.Lists c xs) (h' : s.Lists d xs) (hshape : d.shape = c.shape) :
    s.Reproduces c d xs :=
  ⟨hshape, h, h', h.yields_sameContent h' hshape.symm, h'.yields_sameContent h hshape⟩

/-- Storage that has received the whole list makes a copy. -/
theorem Receives.reproduces {copy shift : Nat} (h : s.Receives c xs copy dims shift xs.length)
    (hshape : shapeOf dims = c.shape) : s.Reproduces c (.leaf k copy dims) xs := by
  obtain ⟨zs, hkeeps, htaken⟩ := h.keeps
  have hzs := h.length_eq hkeeps
  rw [← hzs, List.take_length, hzs, List.take_length] at htaken
  exact h.lists.reproduces ((htaken ▸ hkeeps).lists h.copy_offers) hshape

end Store

namespace Session

/-- A new dense cube of the same shape, cut into chunks as asked, to which the list of all elements of a
cube is written. -/
def rewritten (c : Cube k) (chunkShift : Nat) : Session (Cube k) := do
  let xs ← perform c.elements.raw.toList
  let copy ← filled k (Dimension.ofShape c.shape) chunkShift
  perform (copy.elements.raw.write 0 xs)
  return copy

variable {w : Workspace}

/-- New storage for as many elements as a cube has receives its list, but has no element of it yet. -/
theorem run_filled (h : w.store.Offers c writable) (hlists : w.store.Lists c xs)
    (hsize : c.size = sizeOf (shapeOf dims)) (chunkShift : Nat) :
    ∃ copy w', (filled k dims chunkShift).run.run w = (.ok (.leaf k copy dims), w') ∧
      w'.store.Receives c xs copy dims (min chunkShift Dense.maxChunkShift) 0 := by
  obtain ⟨copy, w', hrun, hkeeps⟩ := (DenseSource.filled chunkShift : DenseSource k).run_make dims w
  have hadd : copy = w.store.leaves.size ∧ ∃ content : Leaf k, w'.store = (w.store.add content).2 := by
    cases hrun
    exact ⟨rfl, _, rfl⟩
  obtain ⟨rfl, content, hstore⟩ := hadd
  have hreach : w.store.Reaches w'.store := hstore ▸ .add .refl content
  have hoffers := h.reaches hreach
  -- The new slot comes after all that are there, and the leaf of the cube is in one of them.
  obtain ⟨leaf, hleaf⟩ := h.exists_leaf rfl
  have hother : c.bottom.2.1 ≠ w.store.leaves.size := by
    obtain ⟨hlt, -⟩ := Array.getElem?_eq_some_iff.1 (Store.leaf?_eq_some.1 hleaf)
    exact Nat.ne_of_lt hlt
  have hsame : Store.SameThere c.bottom.1 c.bottom.2.1 w.store w'.store := by
    rw [hstore]
    exact ⟨hleaf.trans (Store.leaf?_add hleaf content).symm, rfl⟩
  have hcopy : w'.store.Offers (.leaf k w.store.leaves.size dims) true :=
    .made (.dense dims (.filled chunkShift)) hrun .refl .root
  have hlists' := hlists.elsewhere hoffers rfl hsame
  exact ⟨_, w', hrun, ⟨writable, hoffers⟩, hcopy, hother, hsize, hlists', _, hkeeps, rfl⟩

theorem run_toDense (h : w.store.Offers c writable) (hlists : w.store.Lists c xs) :
    ∃ copy w', (toDense c).run.run w = (.ok (.leaf k copy c.dims), w') ∧
      w'.store.Reproduces c (.leaf k copy c.dims) xs := by
  obtain ⟨copy, v, hfilled, hreceives⟩ :=
    run_filled h hlists (rfl : c.size = sizeOf c.shape) Dense.maxChunkShift
  obtain ⟨t, hcopied, hdone⟩ := hreceives.copyFrom
  obtain ⟨w', hrun, rfl⟩ := run_perform hcopied
  refine ⟨copy, w', ?_, hdone.reproduces rfl⟩
  unfold toDense
  rw [run_bind_of_ok hfilled, run_bind_of_ok hrun]
  rfl

theorem run_rewritten (h : w.store.Offers c writable) (hlists : w.store.Lists c xs) (chunkShift : Nat) :
    ∃ copy w', (rewritten c chunkShift).run.run w = (.ok (.leaf k copy (Dimension.ofShape c.shape)), w') ∧
      w'.store.Reproduces c (.leaf k copy (Dimension.ofShape c.shape)) xs := by
  obtain ⟨v, hlist, hstore⟩ := run_perform hlists.outcome_toList
  rw [← hstore] at h hlists
  have hshape : shapeOf (Dimension.ofShape c.shape) = c.shape := shapeOf_ofShape c.shape
  obtain ⟨copy, v', hfilled, hreceives⟩ := run_filled h hlists (congrArg sizeOf hshape.symm) chunkShift
  obtain ⟨t, hwritten, hdone⟩ := hreceives.write (Nat.le_of_eq (Nat.zero_add xs.length))
  rw [List.drop_zero, List.take_length] at hwritten
  rw [Nat.zero_add] at hdone
  obtain ⟨w', hrun, rfl⟩ := run_perform hwritten
  refine ⟨copy, w', ?_, hdone.reproduces hshape⟩
  unfold rewritten
  rw [run_bind_of_ok hlist, run_bind_of_ok hfilled, run_bind_of_ok hrun]
  rfl

end Session

namespace Store

variable {w : Workspace}

/-- What is offered can be read and reproduced, whatever its storage and its layers are. All elements at
once are the list of the elements that single reads give. The dense copy, which is made block by block, has
the same axes, and so the same shape, and the same list. So has new dense storage of the same shape, cut
into chunks as asked, to which the list is written. To compare the cube with either copy finds the same
content, also if some of the elements are no numbers. -/
theorem Offers.reproduced (h : w.store.Offers c writable) :
    ∃ xs, w.store.Lists c xs ∧
      (Session.perform c.elements.raw.toList).outcome w = (.ok xs, w.store) ∧
      (∃ copy w', (Session.toDense c).run.run w = (.ok (.leaf k copy c.dims), w') ∧
        w'.store.Reproduces c (.leaf k copy c.dims) xs) ∧
      ∀ chunkShift, ∃ copy w', (Session.rewritten c chunkShift).run.run w =
          (.ok (.leaf k copy (Dimension.ofShape c.shape)), w') ∧
        w'.store.Reproduces c (.leaf k copy (Dimension.ofShape c.shape)) xs := by
  obtain ⟨xs, hlists⟩ := h.exists_lists
  refine ⟨xs, hlists, ?_, Session.run_toDense h hlists, Session.run_rewritten h hlists⟩
  rw [Session.outcome_perform]
  exact hlists.outcome_toList

/-- A transposed cube with patterns that are no numbers and a negative zero is reproduced pattern by
pattern, also in chunks of one element. -/
theorem Offers.reproduced_patterns :
    let source : LeafSource .f64 := .dense [.ofLength 2, .ofLength 2] (.ofList
      [⟨0x7FF0000000000001⟩, .zero .double true, ⟨0x3FF0000000000000⟩, .nan .double])
    let w := (source.make.run.run {}).2
    let c := (Cube.leaf .f64 0 [.ofLength 2, .ofLength 2]).transpose 0
    let xs : List Kind.f64.Elem :=
      [⟨0x7FF0000000000001⟩, ⟨0x3FF0000000000000⟩, .zero .double true, .nan .double]
    w.store.Offers c true ∧
      (∃ copy w', (Session.toDense c).run.run w = (.ok (.leaf .f64 copy c.dims), w') ∧
        w'.store.Reproduces c (.leaf .f64 copy c.dims) xs) ∧
      ∃ copy w', (Session.rewritten c 0).run.run w =
          (.ok (.leaf .f64 copy (Dimension.ofShape c.shape)), w') ∧
        w'.store.Reproduces c (.leaf .f64 copy (Dimension.ofShape c.shape)) xs := by
  intro source w c xs
  have hmake : source.make.run.run {} = (.ok (.leaf .f64 0 [.ofLength 2, .ofLength 2]), w) := rfl
  have hlayered : Layered (.leaf .f64 0 [.ofLength 2, .ofLength 2]) c :=
    .derive .root (rfl : Derivation.transpose.make 0 _ = .ok c)
  have hc : w.store.Offers c true := .made source hmake .refl hlayered
  obtain ⟨ys, hlists, -, hdense, hrewritten⟩ := hc.reproduced
  have hget : ∀ p (hp : p < 4), ((c.elements.raw.get p).outcome w.store).1 = .ok (xs.get ⟨p, hp⟩) := by
    intro p hp
    match p, hp with
    | 0, _ | 1, _ | 2, _ | 3, _ => rfl
  obtain rfl : ys = xs := hlists.eq_of_get rfl hget
  exact ⟨hc, hdense, hrewritten 0⟩

end Store

end Orthotope
