import Orthotope.Proofs.Cube.Missing
import Orthotope.Proofs.Cube.Writing
import Orthotope.Proofs.Store.AllOrNothing
import Orthotope.Proofs.Store.Session

/-!
# Failing writes to stacks of layers

A `WriteCall` is a call that writes to a cube: of one of its elements, of many or of all, on either
channel, or a copy of the elements of another cube. Each of them is checked before it begins
(`WriteCall.check`): that there is a coordinate for each axis, that positions are in range, that shapes
are the same.

Writes through views that fit and through conversions heed the checks of their positions if the leaf
does (`Cube.Fits.writesInRange`), so that nothing beneath refuses what was let pass. A call that fails
therefore changes nothing, whatever is stored in the leaf, and if the leaf takes writes there is no
other failure than that of the check (`WriteCall.all_or_nothing`).
-/

namespace Orthotope

variable {σ α : Type} {I : σ → Prop} {fails : Prop}

/-! ## Writings -/

namespace Writing

/-- The check that a writing to a cube of the given shape begins with. -/
def check (shape : List Nat) : Writing α → Except Error Unit
  | set coords _ => do
    let _ ← offset? shape coords
  | setAt pos _ => checkPos (sizeOf shape) pos
  | write pos xs => checkRange (sizeOf shape) pos xs.length
  | fill _ => .ok ()

/-- The check passes if the shape has all positions that are to be written. -/
theorem check_eq_ok_iff {shape : List Nat} {op : Writing α} :
    op.check shape = .ok () ↔ op.InRange shape := by
  cases op with
  | set coords x =>
    show ((offset? shape coords >>= fun _ => pure ()) : Except Error Unit) = .ok () ↔ _
    rcases hcoords : offset? shape coords with e | p
    · refine iff_of_false (fun h => ?_) fun hwithin => ?_
      · cases h
      · have hok := offset?_eq_ok_iff.2 ⟨hwithin, rfl⟩
        rw [hcoords] at hok
        cases hok
    · exact iff_of_true rfl (offset?_eq_ok_iff.1 hcoords).1
  | setAt pos x => exact ⟨Channel.lt_of_checkPos, fun h => if_pos h⟩
  | write pos xs => exact ⟨Channel.le_of_checkRange, fun h => if_pos h⟩
  | fill => exact iff_of_true rfl trivial

/-- A writing heeds its check if the channel heeds the checks of its positions. -/
theorem heeds {shape : List Nat} {c : Channel σ α} (hc : c.WritesInRange I fails)
    (hsize : c.size = sizeOf shape) (op : Writing α) :
    (op.run shape c).Heeds I fails (op.check shape) := by
  cases op with
  | set coords x =>
    have hrun : (set coords x).run shape c =
        Act.ofExcept (offset? shape coords) >>= fun pos => c.set pos x := rfl
    have hcheck : (set coords x).check shape =
        ((offset? shape coords >>= fun _ => pure ()) : Except Error Unit) := rfl
    rw [hrun, hcheck]
    rcases hcoords : offset? shape coords with e | p
    · refine ⟨fun {s e} _ he => ?_, fun h => ?_⟩
      · cases he
        rfl
      · cases h
    · obtain ⟨hwithin, rfl⟩ := offset?_eq_ok_iff.1 hcoords
      refine ⟨fun {s e} _ he => ?_, fun _ => hc.set_meets x (hsize ▸ offset_lt hwithin)⟩
      cases he
  | setAt pos x =>
    have hset := hc.set pos x
    rwa [hsize] at hset
  | write pos xs =>
    have hwrite := hc.write pos xs
    rwa [hsize] at hwrite
  | fill x =>
    refine ⟨fun {s e} _ he => ?_, fun _ => hc.fill x⟩
    cases he

end Writing

/-! ## Calls -/

variable {k k₀ : Kind}

/-- A call that writes to a cube. -/
inductive WriteCall (k : Kind) where
  /-- Elements, a missing one having a value. -/
  | raw (op : Writing k.Elem)
  /-- Elements, or `none` for a missing one. -/
  | nullable (op : Writing (Option k.Elem))
  /-- The elements of another cube. -/
  | copyFrom (source : Cube k)

namespace WriteCall

/-- Makes the call. -/
def run (c : Cube k) : WriteCall k → Session Unit
  | raw op => Session.perform (op.run c.shape c.elements.raw)
  | nullable op => Session.perform (op.run c.shape c.elements.nullable)
  | copyFrom source => Session.copyFrom c source

/-- The check that a call to a cube of the given shape begins with. -/
def check (shape : List Nat) : WriteCall k → Except Error Unit
  | raw op => op.check shape
  | nullable op => op.check shape
  | copyFrom source => Channel.checkSameShape shape source.shape

/-- The shape has all positions that are to be written, and is that of the cube that is copied. -/
def Suits (shape : List Nat) : WriteCall k → Prop
  | raw op => op.InRange shape
  | nullable op => op.InRange shape
  | copyFrom source => shape = source.shape

theorem check_eq_ok_iff {shape : List Nat} {call : WriteCall k} :
    call.check shape = .ok () ↔ call.Suits shape := by
  cases call with
  | raw | nullable => exact Writing.check_eq_ok_iff
  | copyFrom => exact Channel.checkSameShape_eq_ok_iff

end WriteCall

/-! ## Stacks of layers -/

namespace Cube

variable {c : Cube k} {slot : Nat} {dims : List Dimension} {I : Store → Prop}

theorem size_raw_elements (c : Cube k) : c.elements.raw.size = c.size := by
  induction c with
  | leaf => rfl
  | view => rfl
  | cast serial inner target ih => exact ih

/-- Writes to a stack of views that fit and conversions heed the checks of their positions if those to
the leaf do. -/
theorem Fits.writesInRange (h : c.Fits) (hbottom : c.bottom = (k₀, slot, dims))
    (hleaf : (Store.access k₀ slot (shapeOf dims)).WritesInRange I fails) :
    c.elements.WritesInRange I fails := by
  induction c with
  | leaf =>
    obtain ⟨rfl, rfl, rfl⟩ : _ ∧ _ ∧ _ := by simpa [bottom] using hbottom
    exact hleaf
  | view serial inner dims transform ih =>
    exact (ih h.1 hbottom).through h.2 inner.size_raw_elements inner.size_nullable
  | cast serial inner target ih => exact (ih h hbottom).convert target

/-- Bulk reads in range of a stack of views that fit and conversions are complete if those of the leaf
are. -/
theorem Fits.readsInRange (h : c.Fits) (hbottom : c.bottom = (k₀, slot, dims))
    (hleaf : (Store.access k₀ slot (shapeOf dims)).raw.ReadsInRange I) :
    c.elements.raw.ReadsInRange I := by
  induction c with
  | leaf =>
    obtain ⟨rfl, rfl, rfl⟩ : _ ∧ _ ∧ _ := by simpa [bottom] using hbottom
    exact hleaf
  | view serial inner dims transform ih =>
    exact (ih h.1 hbottom).through h.2 inner.size_raw_elements
  | cast serial inner target ih => exact (ih h hbottom).convert

end Cube

/-! ## Leaves that were made -/

/-- The store is one in which a cube can be used: its leaf was made in some workspace, the store was
reached from there, and the cube is a stack of views and conversions over the leaf. `writable` says
whether the leaf takes writes. One that does not is a file opened only to be read. -/
inductive Store.Offers (s : Store) (c : Cube k) : (writable : Bool) → Prop where
  | made {k₀ : Kind} {w w' : Workspace} {slot : Nat} {dims : List Dimension} (source : LeafSource k₀)
      (make : source.make.run.run w = (.ok (.leaf k₀ slot dims), w')) (reach : w'.store.Reaches s)
      (layered : Layered (.leaf k₀ slot dims) c) : Offers s c true
  | readOnly {k₀ : Kind} {w w' : Workspace} {slot : Nat} {dims : List Dimension} {name : String}
      {shape : List Nat}
      (make : (Session.openFile k₀ name shape false).run.run w = (.ok (.leaf k₀ slot dims), w'))
      (reach : w'.store.Reaches s) (layered : Layered (.leaf k₀ slot dims) c) : Offers s c false

namespace Store

variable {s : Store} {slot : Nat} {dims : List Dimension} {c : Cube k} {writable : Bool}

/-- A file that was opened only to be read takes no writes. -/
theorem has_readOnly {name : String} {shape : List Nat} {w w' : Workspace}
    (hmake : (Session.openFile k₀ name shape false).run.run w = (.ok (.leaf k₀ slot dims), w')) :
    w'.store.Has k₀ slot fun leaf _ => leaf.writable = false := by
  rw [Session.run_openFile] at hmake
  cases hopen : w.store.files.open name k₀ (sizeOf shape) false with
  | error e =>
    rw [hopen] at hmake
    cases hmake
  | ok files =>
    rw [hopen] at hmake
    cases hmake
    exact ⟨_, leaf?_eq_some.2 Array.getElem?_push_size, rfl⟩

/-- Writes to a cube that is offered heed the checks of their positions. If it takes no writes the store
stays as it is. -/
theorem Offers.writes (h : s.Offers c writable) : ∃ I : Store → Prop, I s ∧
    (writable = false → ∀ t, I t → t = s) ∧ c.elements.WritesInRange I (writable = false) := by
  cases h with
  | @made k₀ w w' slot dims source hmake hreach hlayered =>
    obtain ⟨_, _, hleaf, hsound⟩ := source.sound_make hmake
    cases hleaf
    obtain ⟨hfits, hbottom⟩ := hlayered.fits_and_bottom
    refine ⟨(Sound · k₀ slot (shapeOf dims) source.missing source.gapless), hreach.sound hsound,
      fun hreadOnly => ?_, hfits.writesInRange hbottom (access_writesInRange fun t ht => ht.heedful)⟩
    cases hreadOnly
  | readOnly hmake hreach hlayered =>
    obtain ⟨hfits, hbottom⟩ := hlayered.fits_and_bottom
    have hhas := hreach.has (Leaf.lasting_writable false) (has_readOnly hmake)
    refine ⟨(· = s), rfl, fun _ _ ht => ht, hfits.writesInRange hbottom (access_writesInRange ?_)⟩
    rintro t rfl
    exact heedful_of_readOnly hhas rfl

/-- Bulk reads in range of a cube that is offered are complete, in this state of the store and in those
that requests to any cube lead to. -/
theorem Offers.reads (h : s.Offers c writable) : ∃ J : Store → Prop, J s ∧
    (∀ {k : Kind} (d : Cube k), d.elements.Keeps J) ∧ c.elements.raw.ReadsInRange J := by
  cases h with
  | @made k₀ w w' slot dims source hmake hreach hlayered =>
    obtain ⟨_, _, hleaf, hsound⟩ := source.sound_make hmake
    cases hleaf
    obtain ⟨hfits, hbottom⟩ := hlayered.fits_and_bottom
    refine ⟨(Sound · k₀ slot (shapeOf dims) source.missing source.gapless), hreach.sound hsound,
      fun d => d.keeps_elements .., hfits.readsInRange hbottom ?_⟩
    exact access_readsInRange fun t ht => ⟨_, False, ht.heedful⟩
  | @readOnly k₀ w w' slot dims name shape hmake hreach hlayered =>
    obtain ⟨hfits, hbottom⟩ := hlayered.fits_and_bottom
    have hlasting := Leaf.lasting_writable (k := k₀) false
    refine ⟨_, hreach.has hlasting (has_readOnly hmake), fun d => d.keeps_has _ hlasting,
      hfits.readsInRange hbottom ?_⟩
    exact access_readsInRange fun t ht => ⟨_, True, heedful_of_readOnly ht trivial⟩

end Store

/-! ## All or nothing -/

namespace WriteCall

variable {c : Cube k} {w : Workspace} {writable : Bool}

/-- If the call copies a cube, the store is one in which that can be used. -/
def OfferedBy (s : Store) : WriteCall k → Prop
  | copyFrom source => ∃ writable, s.Offers source writable
  | _ => True

/-- A call comes to an act that heeds the check of the call. If the cube takes no writes the store stays
as it is. -/
theorem exists_heeds (hc : w.store.Offers c writable) (call : WriteCall k)
    (hcall : call.OfferedBy w.store) :
    ∃ (a : Act Store Unit) (I : Store → Prop), (call.run c).outcome w = a.outcome w.store ∧
      I w.store ∧ (writable = false → ∀ t, I t → t = w.store) ∧
      a.Heeds I (writable = false) (call.check c.shape) := by
  obtain ⟨I, hs, hstill, hwrites⟩ := hc.writes
  cases call with
  | raw op =>
    exact ⟨_, I, Session.outcome_perform .., hs, hstill,
      op.heeds hwrites.raw c.size_raw_elements⟩
  | nullable op =>
    exact ⟨_, I, Session.outcome_perform .., hs, hstill, op.heeds hwrites.nullable c.size_nullable⟩
  | copyFrom source =>
    obtain ⟨_, hsource⟩ := hcall
    obtain ⟨J, hJ, hkeeps, hreads⟩ := hsource.reads
    refine ⟨do
        Act.ofExcept (Channel.checkSameShape c.shape source.shape)
        c.elements.raw.copyFrom source.elements.raw,
      fun s => I s ∧ J s, ?_, ⟨hs, hJ⟩, fun hreadOnly t ht => hstill hreadOnly t ht.1, ?_⟩
    · rw [run, Session.outcome_copyFrom]
      cases Channel.checkSameShape c.shape source.shape <;> rfl
    · refine .checked fun hcheck => ?_
      have hshape : c.shape = source.shape := Channel.checkSameShape_eq_ok_iff.1 hcheck
      have hsize : source.elements.raw.size ≤ c.elements.raw.size := by
        rw [source.size_raw_elements, c.size_raw_elements]
        exact Nat.le_of_eq (congrArg sizeOf hshape.symm)
      exact (hwrites.raw.and (hkeeps c).raw).copyFrom hreads.and hsize

/-- A call that writes to a cube does all or nothing, whatever is stored in the leaf, whatever views and
conversions are over it and whatever state the store has come to. If the call fails, nothing in the
store has changed. If the leaf takes writes, the call fails just if its check does, that is, if there is
not a coordinate for each axis, if a position is out of range, or if the cube that is copied has another
shape. If the leaf takes no writes, nothing changes in any case. -/
theorem all_or_nothing (hc : w.store.Offers c writable) (call : WriteCall k)
    (hcall : call.OfferedBy w.store) :
    (∀ e t, (call.run c).outcome w = (.error e, t) → t = w.store) ∧
      (writable = true → ((call.run c).outcome w).1 = call.check c.shape ∧
        (call.check c.shape = .ok () ↔ call.Suits c.shape)) ∧
      (writable = false → ((call.run c).outcome w).2 = w.store) := by
  obtain ⟨a, I, hrun, hs, hstill, hheeds⟩ := call.exists_heeds hc hcall
  rw [hrun]
  refine ⟨fun e t ha => ?_, fun hwritable => ⟨?_, check_eq_ok_iff⟩, fun hreadOnly => ?_⟩
  · have hunchanged := hheeds.unchanged hs hstill (congrArg Prod.fst ha)
    rwa [ha] at hunchanged
  · exact hheeds.value hs fun hreadOnly => Bool.eq_false_iff.1 hreadOnly hwritable
  · exact hheeds.still hs (hstill hreadOnly)

/-- Of three elements that are written to a transposed conversion, the last is out of range: none is
written. -/
theorem all_or_nothing_part_out_of_range :
    let source : LeafSource .i32 := .dense [.ofLength 2, .ofLength 3] (.filled 1)
    let leaf : Cube .i32 := .leaf .i32 0 [.ofLength 2, .ofLength 3]
    let c := (leaf.convert 0 .i64).transpose 1
    let w := (source.make.run.run {}).2
    let call : WriteCall .i64 := .raw (.write 4 [7, 8, 9])
    source.make.run.run {} = (.ok leaf, w) ∧ w.store.Offers c true ∧ call.OfferedBy w.store ∧
      (call.run c).outcome w = (.error (.position 7 6), w.store) := by
  intro source leaf c w call
  have hmake : source.make.run.run {} = (.ok leaf, w) := rfl
  have hlayered : Layered leaf c :=
    .derive (.convert .root) (rfl : Derivation.transpose.make 1 _ = .ok c)
  have hc : w.store.Offers c true := .made source hmake .refl hlayered
  obtain ⟨hunchanged, hvalue, -⟩ := all_or_nothing hc call trivial
  have herror : ((call.run c).outcome w).1 = .error (.position 7 6) := (hvalue rfl).1.trans rfl
  exact ⟨hmake, hc, trivial, Prod.ext herror (hunchanged _ _ (Prod.ext herror rfl))⟩

end WriteCall

end Orthotope
