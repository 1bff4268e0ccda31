import Orthotope.Proofs.Store.Faithful
import Orthotope.Workspace

/-!
# New leaf cubes

The sessions that make dense storage, packed truth values and writable mappings give leaf cubes over
slots that hold something (`Session.MakesStorage`). What is made for a cube therefore is storage that
the faithfulness of `Orthotope.Proofs.Store.Faithful` is about.
-/

namespace Orthotope

variable {k : Kind} {dims : List Dimension} {content : Leaf k}

/-- Storage in a new slot holds there what it holds by itself. -/
theorem Store.holds_add {s : Store} {shape : List Nat} {f : Nat → k.Elem}
    (h : content.Holds shape s.files f) :
    (s.add content).2.Holds k (s.add content).1 shape f := by
  refine ⟨content, ?_, h⟩
  rw [leaf?_eq_some]
  exact Array.getElem?_push_size

namespace Session

/-- If the session succeeds, it gives a leaf cube with the given axes over a slot that holds
something. -/
def MakesStorage (make : Session (Cube k)) (dims : List Dimension) : Prop :=
  ∀ {w w' : Workspace} {c : Cube k}, make.run.run w = (.ok c, w') →
    ∃ slot f, c = .leaf k slot dims ∧ w'.store.Holds k slot (shapeOf dims) f

theorem leaf_makes {w w' : Workspace} {c : Cube k} (content : Leaf k) {f : Nat → k.Elem}
    (h : content.Holds (shapeOf dims) w.store.files f)
    (hrun : (leaf dims content).run.run w = (.ok c, w')) :
    ∃ slot f, c = .leaf k slot dims ∧ w'.store.Holds k slot (shapeOf dims) f := by
  cases hrun
  exact ⟨_, f, rfl, Store.holds_add h⟩

theorem makesStorage_filled (chunkShift : Nat) : (filled k dims chunkShift).MakesStorage dims :=
  fun hrun => leaf_makes _ (Leaf.holds_dense.2 (Dense.holds_filled ..)) hrun

theorem makesStorage_ofList (items : List k.Elem) : (ofList k dims items).MakesStorage dims := by
  intro w w' c hrun
  unfold ofList ofListOf at hrun
  split at hrun
  · cases hrun
  · next hlen =>
    have hholds := Dense.holds_ofList items
    rw [not_not.1 hlen] at hholds
    exact leaf_makes _ (Leaf.holds_dense.2 hholds) hrun

theorem makesStorage_wrap (items : List k.Elem) : (wrap k dims items).MakesStorage dims := by
  intro w w' c hrun
  unfold wrap wrapOf at hrun
  dsimp only at hrun
  split at hrun
  · cases hrun
  next hcapacity =>
  split at hrun
  · cases hrun
  next hlen =>
  have hlen : items.length = sizeOf (shapeOf dims) := not_not.1 hlen
  have hholds := Dense.holds_wrapped (show items.length ≤ 2 ^ Dense.maxChunkShift by omega)
  rw [hlen] at hholds
  exact leaf_makes _ (Leaf.holds_dense.2 hholds) hrun

theorem makesStorage_bits : (bits dims).MakesStorage dims :=
  fun hrun => leaf_makes _ (Leaf.holds_bits.2 (Bits.holds_empty _)) hrun

theorem makesStorage_ofBits {shape : List Nat} {marks : BitSet} (h : marks.Canonical) :
    (ofBits shape marks).MakesStorage (Dimension.ofShape shape) := by
  intro w w' c hrun
  unfold ofBits ofBitsOf at hrun
  split at hrun
  · cases hrun
  · next hlen =>
    have hholds := Bits.holds_mem h
    rw [not_not.1 hlen, ← shapeOf_ofShape shape] at hholds
    exact leaf_makes _ (Leaf.holds_bits.2 hholds) hrun

/-! ## Mappings -/

section
variable (name : String) (shape : List Nat)

/-- A cube over a new file is a leaf cube in a workspace with that file. -/
theorem run_createFile (w : Workspace) :
    (createFile k name shape).run.run w =
      match w.store.files.create name k (sizeOf shape) with
      | .ok (bytes, files) =>
        (leaf (Dimension.ofShape shape) (.mapped ⟨name, true⟩ : Leaf k)).run.run
          { w with
            store := { w.store with files }
            events := w.events.push (.fileCreated bytes name) }
      | .error e => (.error e, w) := by
  show (liftM (w.store.files.create name k (sizeOf shape)) >>= fun made => (do
    modify fun w => { w with store := { w.store with files := made.2 } }
    report (.fileCreated made.1 name)
    leaf (Dimension.ofShape shape) (.mapped ⟨name, true⟩)) : Session (Cube k)).run.run w = _
  rcases w.store.files.create name k (sizeOf shape) with e | ⟨bytes, files⟩ <;> rfl

/-- A cube over a file that is there is a leaf cube in a workspace with that file made ready. -/
theorem run_openFile (writable : Bool) (w : Workspace) :
    (openFile k name shape writable).run.run w =
      match w.store.files.open name k (sizeOf shape) writable with
      | .ok files =>
        (leaf (Dimension.ofShape shape) (.mapped ⟨name, writable⟩ : Leaf k)).run.run
          { w with
            store := { w.store with files }
            events := w.events.push (.fileOpened writable name) }
      | .error e => (.error e, w) := by
  show (liftM (w.store.files.open name k (sizeOf shape) writable) >>= fun files => (do
    modify fun w => { w with store := { w.store with files } }
    report (.fileOpened writable name)
    leaf (Dimension.ofShape shape) (.mapped ⟨name, writable⟩)) : Session (Cube k)).run.run w = _
  rcases w.store.files.open name k (sizeOf shape) writable with e | files <;> rfl

theorem makesStorage_createFile :
    (createFile k name shape).MakesStorage (Dimension.ofShape shape) := by
  intro w w' c hrun
  rw [run_createFile] at hrun
  cases hcreate : w.store.files.create name k (sizeOf shape) with
  | error e =>
    rw [hcreate] at hrun
    cases hrun
  | ok made =>
    rw [hcreate] at hrun
    obtain ⟨f, hf⟩ := Files.holds_create hcreate
    rw [← shapeOf_ofShape shape] at hf
    exact leaf_makes _ (Leaf.holds_mapped.2 hf) hrun

theorem makesStorage_openFile :
    (openFile k name shape true).MakesStorage (Dimension.ofShape shape) := by
  intro w w' c hrun
  rw [run_openFile] at hrun
  cases hopen : w.store.files.open name k (sizeOf shape) true with
  | error e =>
    rw [hopen] at hrun
    cases hrun
  | ok files =>
    rw [hopen] at hrun
    obtain ⟨f, hf⟩ := Files.holds_open hopen
    rw [← shapeOf_ofShape shape] at hf
    exact leaf_makes _ (Leaf.holds_mapped.2 hf) hrun

end

end Session

end Orthotope
