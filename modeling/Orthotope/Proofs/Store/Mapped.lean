import Orthotope.Proofs.Machine.Session
import Orthotope.Proofs.Storage.FileBytes
import Orthotope.Proofs.Store.Sources

/-!
# Cubes over files

A `FileCube` is a cube over a mapped file. Many may be in use at once, also over one file, with elements
of different kinds and with different shapes. `FileCube.Reaches` leads from workspaces to others by
making, opening and closing files and by requests, as long as no file is made anew while a cube over it
is in use. All cubes in use then stay mappings of files that have the bytes of their elements
(`FileCube.Reaches.live`), since no file becomes shorter, and bytes that are not written stay
(`FileCube.Reaches.spares`).

What the bytes of the files are is `FileCube.Reached.file_layout`. It says what making and opening a
file comes to (`Workspace.LaysOut`), what each cube in use shows and what a request to it changes
(`FileCube.LaidOut`), and that what was written is found when the file is opened again
(`FileCube.Recalls`).

All this is for sizes that can be computed in 64 bits, in any arithmetic. A checked computation refuses
any other size. If results wrap around, a file is made for what is left of the size
(`FileCube.file_cut_beyond_bound`).
-/

namespace Orthotope

variable {k : Kind} {s : Store} {slot : Nat} {shape : List Nat} {files : Files}

/-! ## Mappings in slots -/

namespace Mapping

variable {m : Mapping}

/-- A mapping shows the elements that the bytes of its file stand for. -/
theorem shows (shape : List Nat) (h : m.Backed k (sizeOf shape) files) :
    (m.access k shape).raw.Shows files (item k (files.contents m.file)) ∧
      (m.access k shape).nullable.Shows files fun p => some (item k (files.contents m.file) p) := by
  have hsingle := (m.plain_single k (sizeOf shape)).shows h
  refine ⟨⟨hsingle.get, hsingle.read⟩, Channel.shows_stepwise fun {p} hp => ?_⟩
  show (some <$> (m.channel k (sizeOf shape)).get p).outcome files = _
  rw [map_eq_pure_bind, Act.outcome_bind]
  exact congrArg (Act.resume _) (hsingle.get hp)

/-- A slot with a mapping works on the files of the store. -/
theorem backs (hleaf : s.leaf? k slot = some (.mapped m)) :
    s.Backs slot shape (m.access k shape) s.files fun files => { s with files } := by
  have hrestore : (fun files => s.restore slot (Leaf.mapped m, files)) = fun files => { s with files } :=
    funext fun files =>
      congrArg (Store.mk · files) (congrArg Store.leaves (Store.restore_self hleaf))
  rw [← hrestore]
  exact Store.backs_mapped hleaf

end Mapping

/-! ## Cubes in use -/

/-- A cube over a mapped file. -/
structure FileCube where
  kind : Kind
  shape : List Nat
  /-- The slot of its leaf. -/
  slot : Nat
  mapping : Mapping

namespace FileCube

variable {m : Arithmetic} {c d : FileCube} {cubes₀ cubes : List FileCube} {w₀ w w' : Workspace}
  {kept : String → Nat → Prop} {bytes : Array UInt8}

/-- The number of elements. -/
def size (c : FileCube) : Nat := sizeOf c.shape

def cube (c : FileCube) : Cube c.kind := .leaf c.kind c.slot (Dimension.ofShape c.shape)

/-- Access to the elements. -/
def access (c : FileCube) : Access Store c.kind.Elem := c.cube.elements

theorem access_eq (c : FileCube) : c.access = Store.access c.kind c.slot c.shape :=
  congrArg (Store.access c.kind c.slot) (shapeOf_ofShape c.shape)

/-- From a workspace with some cubes in use to others, while no file is made that a cube in use is over.
What is done leaves the bytes alone of which `kept` holds, by the names of the files and the places in
them. Sizes are computed in the arithmetic `m`. -/
inductive Reaches (m : Arithmetic) (kept : String → Nat → Prop) (w₀ : Workspace)
    (cubes₀ : List FileCube) : Workspace → List FileCube → Prop where
  | refl : Reaches m kept w₀ cubes₀ w₀ cubes₀
  | createFile {w w' : Workspace} {cubes : List FileCube} {c : FileCube}
      (before : Reaches m kept w₀ cubes₀ w cubes)
      (unused : ∀ d ∈ cubes, d.mapping.file ≠ c.mapping.file)
      (spared : ∀ j, ¬ kept c.mapping.file j) (writable : c.mapping.writable = true)
      (measures : m.Measures c.shape)
      (run : (Session.createFileIn m c.kind c.mapping.file c.shape).run.run w = (.ok c.cube, w')) :
      Reaches m kept w₀ cubes₀ w' (c :: cubes)
  | openFile {w w' : Workspace} {cubes : List FileCube} {c : FileCube}
      (before : Reaches m kept w₀ cubes₀ w cubes) (measures : m.Measures c.shape)
      (run : (Session.openFileIn m c.kind c.mapping.file c.shape c.mapping.writable).run.run w =
        (.ok c.cube, w')) :
      Reaches m kept w₀ cubes₀ w' (c :: cubes)
  | request {w : Workspace} {cubes : List FileCube} {c : FileCube}
      (before : Reaches m kept w₀ cubes₀ w cubes) (mem : c ∈ cubes) {r : Access.Request c.kind.Elem}
      (spared : ∀ name j, kept name j → ¬ c.mapping.Touches c.kind c.size r name j) :
      Reaches m kept w₀ cubes₀ { w with store := ((c.access.answer r).run w.store).state } cubes
  | close {w : Workspace} {cubes cubes' : List FileCube} (before : Reaches m kept w₀ cubes₀ w cubes)
      (fewer : cubes' ⊆ cubes) : Reaches m kept w₀ cubes₀ w cubes'
  /-- Something else is done, which leaves the leaves and the files of the cubes in use, and the files
  with bytes that are to be left alone. -/
  | elsewhere {w w' : Workspace} {cubes : List FileCube} (before : Reaches m kept w₀ cubes₀ w cubes)
      (leaves : ∀ c ∈ cubes, w'.store.leaf? c.kind c.slot = w.store.leaf? c.kind c.slot)
      (files : ∀ c ∈ cubes, w'.store.files[c.mapping.file]? = w.store.files[c.mapping.file]?)
      (spared : ∀ name j, kept name j → w'.store.files[name]? = w.store.files[name]?) :
      Reaches m kept w₀ cubes₀ w' cubes

/-- The workspaces that cubes over files come to, with the cubes in use. -/
def Reached (m : Arithmetic) (w : Workspace) (cubes : List FileCube) : Prop :=
  ∃ w₀, Reaches m (fun _ _ => False) w₀ [] w cubes

/-- The slot of the cube has its mapping, and the file has the bytes of its elements, which are not too
many. -/
structure Live (c : FileCube) (s : Store) : Prop where
  fits : c.size * c.kind.width ≤ maxPosition
  leaf : s.leaf? c.kind c.slot = some (.mapped c.mapping)
  backed : c.mapping.Backed c.kind c.size s.files

theorem Live.grown (h : c.Live s) (hgrown : s.files.Grown files) : c.Live { s with files } :=
  ⟨h.fits, h.leaf, h.backed.grown hgrown⟩

theorem Live.add (h : c.Live s) (content : Leaf k) : c.Live (s.add content).2 :=
  ⟨h.fits, Store.leaf?_add h.leaf content, h.backed⟩

/-- A request to a cube in use is answered by its mapping, and changes the files only. -/
theorem Live.answer (h : c.Live s) (r : Access.Request c.kind.Elem) :
    let done := ((c.mapping.access c.kind c.shape).answer r).run s.files
    (c.access.answer r).run s = ⟨done.value, done.events, { s with files := done.state }⟩ := by
  rw [access_eq]
  exact (Mapping.backs h.leaf).answer r

/-- A request to a cube leaves the others live. -/
theorem Live.request (h : c.Live s) (hd : d.Live s) (r : Access.Request c.kind.Elem) :
    d.Live ((c.access.answer r).run s).state := by
  rw [h.answer]
  exact hd.grown ((c.mapping.keeps c.kind c.shape s.files).answer (.refl s.files) r)

/-- A request to a live cube is a write in range that is done, or changes nothing. -/
theorem Live.answer_cases (h : c.Live s) (r : Access.Request c.kind.Elem) :
    let done := (c.access.answer r).run s
    (done.value.wrote ∧ ∃ p xs, r.writes c.kind.null = some (p, xs) ∧ p + xs.length ≤ c.size ∧
      (c.mapping.writable = true ∨ xs = []) ∧ done.state.leaves = s.leaves ∧
      done.state.files.Same (c.mapping.edit c.kind s.files p xs)) ∨
    (¬ done.value.wrote ∧ done.state = s ∧ (c.mapping.writable = true →
      ∀ p xs, r.writes c.kind.null = some (p, xs) → ¬ p + xs.length ≤ c.size)) := by
  rw [h.answer]
  rcases Mapping.answer_cases c.shape h.backed r with
    ⟨hwrote, p, xs, hwrites, hle, hm, hsame⟩ | ⟨hnot, hstate, hgt⟩
  · exact .inl ⟨hwrote, p, xs, hwrites, hle, hm, rfl, hsame⟩
  · exact .inr ⟨hnot, congrArg (Store.mk s.leaves) hstate, hgt⟩

/-! ### New cubes -/

/-- The files are changed, and then a new slot has the mapping of the cube. -/
structure Added (c : FileCube) (s : Store) (files : Files) (s' : Store) : Prop where
  fits : c.size * c.kind.width ≤ maxPosition
  slot : c.slot = s.leaves.size
  store : s' = (Store.add { s with files } (.mapped c.mapping : Leaf c.kind)).2

theorem Added.live {s' : Store} (h : c.Added s files s')
    (hbacked : c.mapping.Backed c.kind c.size files) : c.Live s' := by
  refine ⟨h.fits, ?_, ?_⟩
  · rw [h.store, h.slot, Store.leaf?_eq_some]
    exact Array.getElem?_push_size
  · rw [h.store]
    exact hbacked

theorem Added.others {s' : Store} (h : c.Added s files s') (hd : d.Live { s with files }) :
    d.Live s' := by
  rw [h.store]
  exact hd.add _

theorem added_of_leaf
    (run : (Session.leaf (Dimension.ofShape c.shape) (.mapped c.mapping : Leaf c.kind)).run.run w =
      (.ok c.cube, w')) (hfits : c.size * c.kind.width ≤ maxPosition) :
    c.Added w.store w.store.files w'.store := by
  obtain ⟨kind, shape, slot, m⟩ := c
  cases run
  exact ⟨hfits, rfl, rfl⟩

/-- What is done when a file is made for a cube. -/
theorem added_of_createFile (writable : c.mapping.writable = true)
    (run : (Session.createFile c.kind c.mapping.file c.shape).run.run w = (.ok c.cube, w')) :
    c.Added w.store (w.store.files.insert c.mapping.file
      (Array.replicate (c.size * c.kind.width) 0)) w'.store := by
  rw [Session.run_createFile] at run
  rcases Nat.lt_or_ge maxPosition (sizeOf c.shape * c.kind.width) with hbig | hfits
  · rw [Files.create_eq_error hbig] at run
    cases run
  · rw [Files.create_eq_ok hfits,
      show (⟨c.mapping.file, true⟩ : Mapping) = c.mapping from writable ▸ rfl] at run
    obtain ⟨hfits, hslot, hstore⟩ := added_of_leaf run hfits
    exact ⟨hfits, hslot, hstore⟩

/-- What is done when a file is opened for a cube. -/
theorem added_of_openFile
    (run : (Session.openFile c.kind c.mapping.file c.shape c.mapping.writable).run.run w =
      (.ok c.cube, w')) :
    ∃ files, w.store.files.Extended c.mapping.file (c.size * c.kind.width) files ∧
      c.Added w.store files w'.store := by
  rw [Session.run_openFile] at run
  cases hopen : w.store.files.open c.mapping.file c.kind (sizeOf c.shape) c.mapping.writable with
  | error e =>
    rw [hopen] at run
    cases run
  | ok files =>
    rw [hopen] at run
    obtain ⟨hfits, hextended⟩ := Files.extended_of_open hopen
    obtain ⟨hfits, hslot, hstore⟩ := added_of_leaf run hfits
    exact ⟨files, hextended, hfits, hslot, hstore⟩

/-! ### Any number of steps -/

/-- Every cube in use is live. -/
theorem Reaches.live (h : Reaches m kept w₀ cubes₀ w cubes) (hlive : ∀ c ∈ cubes₀, c.Live w₀.store) :
    ∀ c ∈ cubes, c.Live w.store := by
  induction h with
  | refl => exact hlive
  | @createFile w w' cubes c _ unused _ writable measures run ih =>
    rw [Session.createFileIn_eq measures] at run
    have hadded := added_of_createFile writable run
    refine List.forall_mem_cons.2 ⟨hadded.live ⟨_, Std.HashMap.getElem?_insert_self, ?_⟩,
      fun d hd => hadded.others ?_⟩
    · exact Nat.le_of_eq Array.size_replicate.symm
    · obtain ⟨hfits, hleaf, bytes, hfile, hsize⟩ := ih d hd
      refine ⟨hfits, hleaf, bytes, ?_, hsize⟩
      rw [Std.HashMap.getElem?_insert, if_neg (mt beq_iff_eq.1 (Ne.symm (unused d hd)))]
      exact hfile
  | openFile _ measures run ih =>
    rw [Session.openFileIn_eq measures] at run
    obtain ⟨files, hextended, hadded⟩ := added_of_openFile run
    exact List.forall_mem_cons.2 ⟨hadded.live hextended.backed,
      fun d hd => hadded.others ((ih d hd).grown hextended.grown)⟩
  | request _ mem _ ih => exact fun d hd => (ih _ mem).request (ih d hd) _
  | close _ fewer ih => exact fun c hc => ih c (fewer hc)
  | elsewhere _ leaves files _ ih =>
    intro c hc
    obtain ⟨hfits, hleaf, bytes, hfile, hsize⟩ := ih c hc
    exact ⟨hfits, (leaves c hc).trans hleaf, bytes, (files c hc).trans hfile, hsize⟩

/-- Every cube in use has a size that was found. -/
theorem Reaches.measures (h : Reaches m kept w₀ cubes₀ w cubes) (hsizes : ∀ c ∈ cubes₀, m.Measures c.shape) :
    ∀ c ∈ cubes, m.Measures c.shape := by
  induction h with
  | refl => exact hsizes
  | createFile _ _ _ _ measures _ ih | openFile _ measures _ ih => exact List.forall_mem_cons.2 ⟨measures, ih⟩
  | request _ _ _ ih | elsewhere _ _ _ _ ih => exact ih
  | close _ fewer ih => exact fun c hc => ih c (fewer hc)

/-- The bytes that are left alone stay, and their file does not become shorter. -/
theorem Reaches.spares (h : Reaches m kept w₀ cubes₀ w cubes) (hlive : ∀ c ∈ cubes₀, c.Live w₀.store)
    {name : String} {i : Nat} (hname : kept name i) (hfile : w₀.store.files[name]? = some bytes) :
    ∃ bytes', w.store.files[name]? = some bytes' ∧ bytes.size ≤ bytes'.size ∧
      ∀ j, kept name j → j < bytes.size → bytes'[j]? = bytes[j]? := by
  induction h with
  | refl => exact ⟨bytes, hfile, Nat.le_refl _, fun _ _ _ => rfl⟩
  | @createFile w w' cubes c _ _ spared writable measures run ih =>
    rw [Session.createFileIn_eq measures] at run
    obtain ⟨bytes', hfile', hkept⟩ := ih
    have hne : c.mapping.file ≠ name := fun heq => spared i (heq ▸ hname)
    refine ⟨bytes', ?_, hkept⟩
    rw [(added_of_createFile writable run).store]
    refine Std.HashMap.getElem?_insert.trans ?_
    rw [if_neg (mt beq_iff_eq.1 hne), hfile']
  | openFile _ measures run ih =>
    rw [Session.openFileIn_eq measures] at run
    obtain ⟨bytes', hfile', hsize, hkept⟩ := ih
    obtain ⟨files, hextended, hadded⟩ := added_of_openFile run
    obtain ⟨bytes'', hfile'', hsize', hkept'⟩ := hextended.spares hfile'
    refine ⟨bytes'', ?_, Nat.le_trans hsize hsize', fun j hj hlt => ?_⟩
    · rw [hadded.store]
      exact hfile''
    · rw [hkept' j (Nat.lt_of_lt_of_le hlt hsize), hkept j hj hlt]
  | @request w cubes c before mem r spared ih =>
    obtain ⟨bytes', hfile', hsize, hkept⟩ := ih
    have hc := before.live hlive c mem
    obtain ⟨bytes'', hfile'', hsize', hkept'⟩ := Mapping.answer_spares c.shape hc.backed r hfile'
    refine ⟨bytes'', ?_, hsize' ▸ hsize, fun j hj hlt => ?_⟩
    · rw [hc.answer]
      exact hfile''
    · rw [hkept' j (spared name j hj), hkept j hj hlt]
  | close _ _ ih => exact ih
  | elsewhere _ _ _ spared ih =>
    obtain ⟨bytes', hfile', hkept⟩ := ih
    exact ⟨bytes', (spared name i hname).trans hfile', hkept⟩

/-- In a reached workspace every cube in use is live. -/
theorem Reached.live (h : Reached m w cubes) : ∀ c ∈ cubes, c.Live w.store := by
  obtain ⟨w₀, h⟩ := h
  exact h.live fun _ hmem => absurd hmem List.not_mem_nil

theorem Reached.measures (h : Reached m w cubes) : ∀ c ∈ cubes, m.Measures c.shape := by
  obtain ⟨w₀, h⟩ := h
  exact Reaches.measures h fun _ hmem => absurd hmem List.not_mem_nil

end FileCube

/-! ## What the bytes of files are -/

/-- On both channels an access shows the same elements, none of which is missing. -/
structure Access.ShowsBoth {σ α : Type} (a : Access σ α) (s : σ) (f : Nat → α) : Prop where
  raw : a.raw.Shows s f
  nullable : a.nullable.Shows s fun p => some (f p)

/-- What making and opening a file comes to in a workspace, for a cube of the given kind and shape. -/
structure Workspace.LaysOut (m : Arithmetic) (w : Workspace) (k : Kind) (name : String)
    (shape : List Nat) : Prop where
  /-- A new file has the bytes of the elements, all zero, and no other file changes. -/
  create : m.Measures shape → sizeOf shape * k.width ≤ maxPosition →
    ∃ slot w', (Session.createFileIn m k name shape).run.run w =
        (.ok (.leaf k slot (Dimension.ofShape shape)), w') ∧
      w'.store.files[name]? = some (Array.replicate (sizeOf shape * k.width) 0) ∧
      ∀ other, other ≠ name → w'.store.files[other]? = w.store.files[other]?
  /-- A file that is opened keeps its bytes. If it is too short, zeros follow them. -/
  openFile : m.Measures shape → sizeOf shape * k.width ≤ maxPosition → ∀ {writable bytes},
    w.store.files[name]? = some bytes → writable = true ∨ sizeOf shape * k.width ≤ bytes.size →
    ∃ slot w', (Session.openFileIn m k name shape writable).run.run w =
        (.ok (.leaf k slot (Dimension.ofShape shape)), w') ∧
      w.store.files.Extended name (sizeOf shape * k.width) w'.store.files
  /-- A file that may only be read and is too short is refused. -/
  short : m.Measures shape → sizeOf shape * k.width ≤ maxPosition → ∀ {bytes},
    w.store.files[name]? = some bytes → bytes.size < sizeOf shape * k.width →
    (Session.openFileIn m k name shape false).run.run w =
      (.error (.fileShort name bytes.size (sizeOf shape * k.width)), w)
  /-- Too many elements are refused before any file is touched. -/
  tooMany : m.Measures shape → maxPosition < sizeOf shape * k.width →
    let e := Error.argument s!"{sizeOf shape} elements are too many to map"
    (Session.createFileIn m k name shape).run.run w = (.error e, w) ∧
      ∀ writable, (Session.openFileIn m k name shape writable).run.run w = (.error e, w)
  /-- A size that cannot be computed overflows before any file is touched, if that is checked. -/
  overflow : m = .checked → ¬Measured shape →
    (Session.createFileIn m k name shape).run.run w = (.error (.misuse .overflow), w) ∧
      ∀ writable,
        (Session.openFileIn m k name shape writable).run.run w = (.error (.misuse .overflow), w)

theorem Workspace.laysOut (m : Arithmetic) (w : Workspace) (k : Kind) (name : String)
    (shape : List Nat) : w.LaysOut m k name shape where
  create hsize hfits := by
    rw [Session.createFileIn_eq hsize, Session.run_createFile, Files.create_eq_ok hfits]
    refine ⟨_, _, rfl, Std.HashMap.getElem?_insert_self, fun other hne => ?_⟩
    exact Std.HashMap.getElem?_insert.trans (if_neg (mt beq_iff_eq.1 (Ne.symm hne)))
  openFile hsize hfits writable bytes hfile hfit := by
    obtain ⟨files, hopen, hextended⟩ := Files.open_eq_ok hfits hfile hfit
    rw [Session.openFileIn_eq hsize, Session.run_openFile, hopen]
    exact ⟨_, _, rfl, hextended⟩
  short hsize hfits bytes hfile hlt := by
    rw [Session.openFileIn_eq hsize, Session.run_openFile, Files.open_eq_short hfits hfile hlt]
  tooMany hsize hbig := by
    refine ⟨?_, fun writable => ?_⟩
    · rw [Session.createFileIn_eq hsize, Session.run_createFile, Files.create_eq_error hbig]
    · rw [Session.openFileIn_eq hsize, Session.run_openFile, Files.open_eq_error hbig]
  overflow hm hover := by
    subst hm
    refine ⟨?_, fun writable => ?_⟩
    · rw [Session.createFileIn_overflow hover]
      rfl
    · rw [Session.openFileIn_overflow hover]
      rfl

namespace FileCube

variable {m : Arithmetic} {c : FileCube} {cubes : List FileCube} {w w' : Workspace} {bytes : Array UInt8}

/-- The element at a position of a file: that of its bytes. -/
def element (c : FileCube) (bytes : Array UInt8) (i : Nat) : c.kind.Elem :=
  c.kind.ofBytes (bytes.extract (i * c.kind.width) ((i + 1) * c.kind.width)).toList

/-- What a cube in use is, if its file has the given bytes. -/
structure LaidOut (c : FileCube) (w : Workspace) (bytes : Array UInt8) : Prop where
  file : w.store.files[c.mapping.file]? = some bytes
  length : c.size * c.kind.width ≤ bytes.size
  /-- The cube shows the elements that the bytes stand for. -/
  shows : c.access.ShowsBoth w.store (c.element bytes)
  /-- A write that is done is in range and replaces the bytes of its elements. If the file may only be
  read, there are none. -/
  wrote : ∀ r : Access.Request c.kind.Elem,
    let done := (c.access.answer r).run w.store
    done.value.wrote → ∃ p xs, r.writes c.kind.null = some (p, xs) ∧ p + xs.length ≤ c.size ∧
      (c.mapping.writable = true ∨ xs = []) ∧ done.state.leaves = w.store.leaves ∧
      w.store.files.Replaced c.mapping.file (p * c.kind.width) (xs.flatMap c.kind.toBytes)
        done.state.files
  /-- Any other request changes nothing. -/
  refused : ∀ r : Access.Request c.kind.Elem,
    let done := (c.access.answer r).run w.store
    ¬ done.value.wrote → done.state = w.store
  /-- If the file may be written, every write in range is done. -/
  writes : c.mapping.writable = true → ∀ {r : Access.Request c.kind.Elem} {p xs},
    r.writes c.kind.null = some (p, xs) → p + xs.length ≤ c.size →
    ((c.access.answer r).run w.store).value.wrote

/-- The place in a file belongs to the element at a position. -/
def Owns (c : FileCube) (i : Nat) (name : String) (j : Nat) : Prop :=
  name = c.mapping.file ∧ i * c.kind.width ≤ j ∧ j < (i + 1) * c.kind.width

/-- An element that a request writes is found again, whatever is done afterwards as long as its bytes
are left alone: the file can be opened for a cube of the same kind and shape, and that shows the
element. -/
def Recalls (m : Arithmetic) (c : FileCube) (w : Workspace) (cubes : List FileCube) : Prop :=
  ∀ {r : Access.Request c.kind.Elem} {i x},
    let done := (c.access.answer r).run w.store
    done.value.wrote → r.puts c.size c.kind.null i = some x →
    ∀ {w' cubes'}, Reaches m (c.Owns i) { w with store := done.state } cubes w' cubes' → ∀ writable,
      ∃ slot w'', (Session.openFileIn m c.kind c.mapping.file c.shape writable).run.run w' =
          (.ok (.leaf c.kind slot (Dimension.ofShape c.shape)), w'') ∧
        ∃ f, (Cube.leaf c.kind slot (Dimension.ofShape c.shape)).elements.ShowsBoth w''.store f ∧ f i = x

theorem item_eq_element (c : FileCube) (bytes : Array UInt8) :
    Mapping.item c.kind bytes = c.element bytes :=
  funext fun i => Mapping.item_eq c.kind bytes i

theorem Live.shows (h : c.Live s) (hfile : s.files[c.mapping.file]? = some bytes) :
    c.access.ShowsBoth s (c.element bytes) := by
  obtain ⟨hraw, hnullable⟩ := Mapping.shows c.shape h.backed
  rw [Files.contents_eq hfile, item_eq_element] at hraw hnullable
  rw [access_eq]
  exact ⟨(Mapping.backs h.leaf).shows Access.raw rfl hraw,
    (Mapping.backs h.leaf).shows Access.nullable rfl hnullable⟩

theorem Live.laidOut (h : c.Live w.store) : ∃ bytes, c.LaidOut w bytes := by
  obtain ⟨bytes, hfile, hsize⟩ := h.backed
  refine ⟨bytes, hfile, hsize, h.shows hfile, fun r hwrote => ?wrote, fun r hnot => ?refused,
    fun hm r p xs hwrites hle => ?writes⟩
  all_goals
    rcases h.answer_cases r with ⟨hdone, p', xs', hwrites', hle', hm', hleaves, hsame⟩ |
      ⟨hnone, hstate, hgt⟩
  case wrote.inl =>
    exact ⟨p', xs', hwrites', hle', hm', hleaves, Mapping.replaced_edit h.backed hle' hsame⟩
  case wrote.inr => exact absurd hwrote hnone
  case refused.inl => exact absurd hdone hnot
  case refused.inr => exact hstate
  case writes.inl => exact hdone
  case writes.inr => exact absurd hle (hgt hm p xs hwrites)

/-- A file that is long enough can be opened, and the cube shows the elements that its bytes stand for. -/
theorem opened (hmeasures : m.Measures c.shape) (hfits : c.size * c.kind.width ≤ maxPosition)
    (hfile : w.store.files[c.mapping.file]? = some bytes) (hsize : c.size * c.kind.width ≤ bytes.size)
    (writable : Bool) :
    ∃ slot w', (Session.openFileIn m c.kind c.mapping.file c.shape writable).run.run w =
        (.ok (.leaf c.kind slot (Dimension.ofShape c.shape)), w') ∧
      (Cube.leaf c.kind slot (Dimension.ofShape c.shape)).elements.ShowsBoth w'.store
        (c.element bytes) := by
  have hopen : w.store.files.open c.mapping.file c.kind (sizeOf c.shape) writable =
      .ok w.store.files := (Files.open_eq hfits hfile).trans (if_pos hsize)
  rw [Session.openFileIn_eq hmeasures, Session.run_openFile, hopen]
  let d : FileCube := ⟨c.kind, c.shape, w.store.leaves.size, ⟨c.mapping.file, writable⟩⟩
  have hadded : d.Added w.store w.store.files (w.store.add (.mapped d.mapping : Leaf d.kind)).2 :=
    ⟨hfits, rfl, rfl⟩
  exact ⟨_, _, rfl, (hadded.live ⟨bytes, hfile, hsize⟩).shows hfile⟩

/-- What a live cube writes it recalls if all cubes in use are live. -/
theorem Live.recalls (h : c.Live w.store) (hmeasures : m.Measures c.shape)
    (hlive : ∀ d ∈ cubes, d.Live w.store) : c.Recalls m w cubes := by
  intro r i x done hwrote hput w' cubes' hreach writable
  rcases h.answer_cases r with ⟨-, p, xs, hwrites, hle, -, -, hsame⟩ | ⟨hnot, -⟩
  case inr => exact absurd hwrote hnot
  obtain ⟨bytes, hfile, hsize⟩ := h.backed
  rw [Access.Request.puts_eq_placed hwrites hle] at hput
  have hi : i < c.size := Nat.lt_of_lt_of_le (lt_of_placed hput) hle
  have hnew := (hsame c.mapping.file).trans (Mapping.getElem?_edit_self hfile p xs)
  have hitem : c.element (Mapping.overwrite c.kind bytes p xs) i = x := by
    rw [← item_eq_element, Mapping.item_overwrite_placed hsize hle, hput]
    rfl
  have hspan : (i + 1) * c.kind.width ≤ (Mapping.overwrite c.kind bytes p xs).size := by
    rw [Mapping.size_overwrite_items]
    exact Nat.le_trans (Nat.mul_le_mul_right _ hi) hsize
  -- the first byte of the element says that its file is one with bytes left alone
  have hown : c.Owns i c.mapping.file (i * c.kind.width) :=
    ⟨rfl, Nat.le_refl _, Nat.mul_lt_mul_of_pos_right (Nat.lt_succ_self i) c.kind.width_pos⟩
  obtain ⟨bytes', hfile', hlonger, hkept⟩ :=
    hreach.spares (fun d hd => h.request (hlive d hd) r) hown hnew
  have hsize' : c.size * c.kind.width ≤ bytes'.size := by
    rw [Mapping.size_overwrite_items] at hlonger
    exact Nat.le_trans hsize hlonger
  obtain ⟨slot, w'', hrun, hshows⟩ := opened hmeasures h.fits hfile' hsize' writable
  refine ⟨slot, w'', hrun, _, hshows, ?_⟩
  rw [← hitem, ← item_eq_element, ← item_eq_element]
  exact Mapping.item_congr hspan hlonger fun j hj hlt =>
    hkept j ⟨rfl, hj, hlt⟩ (Nat.lt_of_lt_of_le hlt hspan)

/-- The layout of files under cubes, in any arithmetic in which the sizes are found. Making a file gives
it the bytes of the elements, all zero, opening one keeps its bytes and at most adds zeros, and what
cannot be done leaves everything as it was; a size that overflows is refused if that is checked. However
cubes of any kinds and shapes were made, opened, closed and written, also several over one file, each
cube in use shows the elements that the bytes of its file stand for, and a write to it that is done
replaces the bytes of its elements and no others. What was written is there when the file is opened
again for a cube of the same kind and shape, until something else is written in its place. -/
theorem Reached.file_layout (h : Reached m w cubes) :
    (∀ k name shape, w.LaysOut m k name shape) ∧
    ∀ c ∈ cubes, (∃ bytes, c.LaidOut w bytes) ∧ c.Recalls m w cubes := by
  refine ⟨fun k name shape => w.laysOut m k name shape, fun c hc => ?_⟩
  have hlive := h.live
  exact ⟨(hlive c hc).laidOut, (hlive c hc).recalls (h.measures c hc) hlive⟩

/-- An integer is written to a new file, which is then opened for truth values, of which it has too few
bytes. The bytes of the integer are seen as truth values. Another truth value is written behind them, and
when the file is opened for integers again, the integer is found. -/
theorem Reached.file_layout_of_two_widths : ∃ (i j : Nat) (w w' : Workspace),
    let d : FileCube := ⟨.bool, [10], j, ⟨"a", true⟩⟩
    let s := ((d.access.answer (.raw (.set 8 true))).run w.store).state
    let e : Cube .i32 := .leaf .i32 i (Dimension.ofShape [2])
    w.store.files["a"]? = some #[0, 0, 0, 0, 2, 1, 0, 0, 0, 0] ∧
      (d.access.raw.get 5).outcome w.store = (.ok true, w.store) ∧
      (Session.openFileIn .wrapping .i32 "a" [2] false).run.run { w with store := s } = (.ok e, w') ∧
      (e.elements.raw.get 1).outcome w'.store = (.ok 258, w'.store) := by
  have hints : Arithmetic.wrapping.Measures [2] := .inr (by decide)
  have hbools : Arithmetic.wrapping.Measures [10] := .inr (by decide)
  have h₀ : Reached .wrapping {} [] := ⟨{}, .refl⟩
  obtain ⟨i, w₁, hrun₁, hfile₁, -⟩ := (h₀.file_layout.1 .i32 "a" [2]).create hints (by decide)
  let c : FileCube := ⟨.i32, [2], i, ⟨"a", true⟩⟩
  let r : Access.Request c.kind.Elem := .raw (.write 1 [258])
  let w₂ : Workspace := { w₁ with store := ((c.access.answer r).run w₁.store).state }
  have hreach₁ : Reaches .wrapping (fun _ _ => False) {} [] w₁ [c] :=
    .createFile .refl (fun _ hd => absurd hd List.not_mem_nil) (fun _ h => h) rfl hints hrun₁
  have hreach₂ : Reaches .wrapping (fun _ _ => False) {} [] w₂ [c] :=
    .request hreach₁ List.mem_cons_self fun _ _ h => h.elim
  have h₁ : Reached .wrapping w₁ [c] := ⟨_, hreach₁⟩
  have h₂ : Reached .wrapping w₂ [c] := ⟨_, hreach₂⟩
  obtain ⟨⟨bytes₁, hlaid₁⟩, hrecalls⟩ := h₁.file_layout.2 c List.mem_cons_self
  have hwrote := hlaid₁.writes rfl (r := r) rfl (show 1 + 1 ≤ 2 by decide)
  have hfile₂ : w₂.store.files["a"]? = some #[0, 0, 0, 0, 2, 1, 0, 0] := by
    obtain ⟨p, xs, hwrites, -, -, -, hreplaced⟩ := hlaid₁.wrote r hwrote
    cases hwrites
    obtain ⟨bytes, hbytes, -, hnew⟩ := hreplaced.file
    cases hfile₁.symm.trans hbytes
    have hall : ((Array.replicate 8 (0 : UInt8)).toList.take 4 ++ Kind.i32.toBytes 258 ++
        (Array.replicate 8 (0 : UInt8)).toList.drop 8).toArray = #[0, 0, 0, 0, 2, 1, 0, 0] := by decide
    exact hnew.trans (congrArg some hall)
  obtain ⟨j, w₃, hrun₃, hextended⟩ :=
    (h₂.file_layout.1 .bool "a" [10]).openFile hbools (by decide) hfile₂ (.inl rfl)
  let d : FileCube := ⟨.bool, [10], j, ⟨"a", true⟩⟩
  have h₃ : Reached .wrapping w₃ [d, c] := ⟨_, .openFile hreach₂ hbools hrun₃⟩
  obtain ⟨⟨bytes₃, hlaid₃⟩, -⟩ := h₃.file_layout.2 d List.mem_cons_self
  have hfile₃ : w₃.store.files["a"]? = some #[0, 0, 0, 0, 2, 1, 0, 0, 0, 0] := by
    obtain ⟨bytes, hbytes, hnew⟩ := hextended.file
    cases hfile₂.symm.trans hbytes
    exact hnew
  cases hlaid₃.file.symm.trans hfile₃
  -- the byte of the truth value is not one of those of the integer
  have hreach₃ : Reaches .wrapping (c.Owns 1) w₂ [c] w₃ [d, c] := .openFile .refl hbools hrun₃
  have hreach : Reaches .wrapping (c.Owns 1) w₂ [c]
      { w₃ with store := ((d.access.answer (.raw (.set 8 true))).run w₃.store).state } [d, c] := by
    refine hreach₃.request (c := d) (r := .raw (.set 8 true)) List.mem_cons_self ?_
    rintro _ j ⟨-, -, hlt⟩ ⟨-, -, p, xs, hwrites, -, hle, -⟩
    cases hwrites
    have hlt : j < 8 := hlt
    have hle : 8 ≤ j := hle
    omega
  have hput : r.puts c.size c.kind.null 1 = some 258 := rfl
  obtain ⟨slot, w', hrun, f, hshows, hf⟩ := hrecalls hwrote hput hreach false
  refine ⟨slot, j, w₃, w', hfile₃, hlaid₃.shows.raw.get (show 5 < 10 by decide), hrun, ?_⟩
  rw [← hf]
  exact hshows.raw.get (show 1 < 2 by decide)

/-- The bytes of 2 * (2^63 + 1) elements are too many to map. A checked computation refuses to make a
file for them, since the size overflows. If results wrap around, a file that was there is cut to two
elements. -/
theorem file_cut_beyond_bound :
    let shape := [2, 2 ^ 63 + 1]
    let w : Workspace := { store := { files := (∅ : Files).insert "a" #[1, 2, 3, 4, 5, 6, 7, 8, 9] } }
    maxPosition < sizeOf shape * Kind.i32.width ∧
      (Session.createFileIn .checked .i32 "a" shape).run.run w = (.error (.misuse .overflow), w) ∧
      ∃ slot w', (Session.createFileIn .wrapping .i32 "a" shape).run.run w =
          (.ok (.leaf .i32 slot (Dimension.ofShape shape)), w') ∧
        w'.store.files["a"]? = some (Array.replicate 8 0) := by
  intro shape w
  have hsize : sizeIn .wrapping shape = .ok 2 := by
    rw [sizeIn_wrapping]
    decide
  refine ⟨by decide, ?_, ?_⟩
  · rw [Session.createFileIn_overflow (by decide)]
    rfl
  · unfold Session.createFileIn Session.measured
    rw [hsize]
    refine ⟨_, _, rfl, Std.HashMap.getElem?_insert_self⟩

end FileCube

end Orthotope
