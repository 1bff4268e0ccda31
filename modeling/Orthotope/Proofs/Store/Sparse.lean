import Orthotope.Proofs.Storage.Sparse
import Orthotope.Proofs.Store.Requests

/-!
# Requests to sparse storage

A sparse cube stands for all its positions, although only some have an entry. It answers every list of
requests from what was last written to each position (`Sparse.answers_as_written`): the element itself
if it differs from the null value, and otherwise the null value on the raw channel and nothing on the
nullable one. No entry is left behind for a position that was emptied, so that the entries can be
counted to learn how many positions show something.
-/

namespace Orthotope

namespace Store

variable {k : Kind} {s : Store} {slot : Nat} {shape : List Nat} {null : k.Elem}
  {xs : List (Option k.Elem)}

/-- A slot has sparse storage, when a list tells what was last written to each position of the shape. -/
def KeepsWritten (s : Store) (k : Kind) (slot : Nat) (shape : List Nat) (null : k.Elem)
    (xs : List (Option k.Elem)) : Prop :=
  xs.length = sizeOf shape ∧
    ∃ content : Sparse k, s.leaf? k slot = some (.sparse content) ∧ content.WrittenBy null xs

/-- A request to a slot with sparse storage is answered from what was written. -/
theorem KeepsWritten.answer (h : s.KeepsWritten k slot shape null xs) (r : Access.Request k.Elem) :
    (((access k slot shape).answer r).run s).value = (Sparse.onWritten null xs r).1 ∧
      KeepsWritten (((access k slot shape).answer r).run s).state k slot shape null
        (Sparse.onWritten null xs r).2 := by
  obtain ⟨hlen, content, hleaf, hwritten⟩ := h
  obtain ⟨hvalue, hstate⟩ := hwritten.answer hlen r
  rw [(backs_sparse hleaf).answer]
  exact ⟨hvalue, (Sparse.length_onWritten ..).trans hlen, _, leaf?_restore hleaf, hstate⟩

/-- What single positions read, on the two channels. -/
theorem KeepsWritten.get (h : s.KeepsWritten k slot shape null xs) {p : Nat} {x : Option k.Elem}
    (hx : xs[p]? = some x) :
    ((access k slot shape).raw.get p).outcome s = (.ok ((Sparse.kept null x).getD null), s) ∧
      ((access k slot shape).nullable.get p).outcome s = (.ok (Sparse.kept null x), s) := by
  obtain ⟨hlen, content, hleaf, hwritten⟩ := h
  have hbacks : s.Backs slot shape (Sparse.access shape) content _ := backs_sparse hleaf
  have hp : p < sizeOf shape := hlen ▸ (List.getElem?_eq_some_iff.1 hx).1
  constructor
  · refine (hbacks.outcome fun a => a.raw.get p).trans ?_
    rw [Act.outcome, Sparse.plain_raw.get hwritten.null_eq hp, hwritten.item_of_getElem? hx,
      hbacks.now]
  · refine (hbacks.outcome fun a => a.nullable.get p).trans ?_
    rw [Act.outcome, Sparse.plain_nullable.get hwritten.null_eq hp,
      hwritten.find_of_getElem? hx, hbacks.now]

end Store

namespace Sparse

variable {k : Kind}

/-- New sparse storage, to which nothing was written yet. -/
theorem run_sparse (dims : List Dimension) (null : k.Elem) {loading : Binary .double}
    (hnumber : loading.isNaN = false) (w : Workspace) :
    ∃ slot w', (Session.sparse k dims null loading).run.run w = (.ok (.leaf k slot dims), w') ∧
      w'.store.KeepsWritten k slot (shapeOf dims) null
        (List.replicate (sizeOf (shapeOf dims)) none) := by
  unfold Session.sparse Session.checkLoading
  rw [hnumber]
  exact ⟨_, _, rfl, List.length_replicate, _, Store.leaf?_eq_some.2 Array.getElem?_push_size,
    writtenBy_empty null (sizeOf (shapeOf dims)) loading⟩

/-- A sparse cube is a flat list of what was last written to each position, whatever its null value is.
Every list of requests is answered as by that list. In the storage that is left a position reads as what
was written to it last if that differs from the null value, and otherwise as the null value on the raw
channel and as missing on the nullable one. The entries are at positions of the cube and do not decode
to the null value, and there are as many as positions with something on the nullable channel. -/
theorem answers_as_written (dims : List Dimension) (null : k.Elem) {loading : Binary .double}
    (hnumber : loading.isNaN = false) (w : Workspace) :
    ∃ slot w', (Session.sparse k dims null loading).run.run w = (.ok (.leaf k slot dims), w') ∧
      ∀ requests : List (Access.Request k.Elem),
        let cube := Cube.leaf k slot dims
        let done := (cube.elements.answers requests).run w'.store
        let expected := Access.refer (onWritten null)
          (List.replicate (sizeOf (shapeOf dims)) none) requests
        let written := expected.2
        done.value = expected.1 ∧
        written.length = sizeOf (shapeOf dims) ∧
        (∀ p x, written[p]? = some x →
          (cube.elements.raw.get p).outcome done.state =
            (.ok ((kept null x).getD null), done.state) ∧
          (cube.elements.nullable.get p).outcome done.state = (.ok (kept null x), done.state)) ∧
        ∃ content : Sparse k, done.state.leaf? k slot = some (.sparse content) ∧
          content.null = null ∧
          (∀ p bits, content.entries[p]? = some bits →
            p < sizeOf (shapeOf dims) ∧ k.same (k.ofBits bits) null = false) ∧
          content.count = (written.map (kept null)).countP Option.isSome ∧
          (content.isEmpty = true ↔ ∀ x ∈ written, kept null x = none) := by
  obtain ⟨slot, w', hrun, hnew⟩ := run_sparse dims null hnumber w
  refine ⟨slot, w', hrun, fun requests => ?_⟩
  obtain ⟨hvalue, hkeeps⟩ := Access.answers_refine
    (a := (Cube.leaf k slot dims).elements)
    (R := fun s xs => Store.KeepsWritten s k slot (shapeOf dims) null xs)
    (fun r h => h.answer r) requests hnew
  refine ⟨hvalue, hkeeps.1, fun p x hx => hkeeps.get hx, ?_⟩
  obtain ⟨hlen, content, hleaf, hwritten⟩ := hkeeps
  refine ⟨content, hleaf, hwritten.null_eq, fun p bits hentry => ?_, hwritten.count_eq,
    hwritten.isEmpty_iff⟩
  exact hlen ▸ hwritten.entry hentry

/-- With the null value -1, the elements 0 and 7 are written and the second is overwritten by -1: the
first is an element like any other, and the entry of the second is gone. -/
theorem answers_as_written_over_custom_null :
    (Binary.zero .double false).isNaN = false ∧
      ∃ slot w', (Session.sparse .i32 [.ofLength 3] (-1) (Binary.zero .double false)).run.run {} =
          (.ok (.leaf .i32 slot [.ofLength 3]), w') ∧
        let done := ((Cube.leaf .i32 slot [.ofLength 3]).elements.answers
          [.raw (.write 1 [0, 7]), .nullable (.read 0 [none, none, none]), .raw (.set 2 (-1)),
            .raw (.read 1 [9, 9])]).run w'.store
        done.value = [.raw (.done (.ok ())), .nullable (.buffer (.ok ()) [none, some 0, some 7]),
          .raw (.done (.ok ())), .raw (.buffer (.ok ()) [0, -1])] ∧
        ∃ content : Sparse .i32, done.state.leaf? .i32 slot = some (.sparse content) ∧
          content.count = 1 := by
  have hnumber : (Binary.zero .double false).isNaN = false := by decide
  obtain ⟨slot, w', hrun, hall⟩ :=
    answers_as_written (k := .i32) [.ofLength 3] (-1) hnumber {}
  obtain ⟨hvalue, -, -, content, hleaf, -, -, hcount, -⟩ := hall
    [.raw (.write 1 [0, 7]), .nullable (.read 0 [none, none, none]), .raw (.set 2 (-1)),
      .raw (.read 1 [9, 9])]
  exact ⟨hnumber, slot, w', hrun, hvalue, content, hleaf, hcount⟩

end Sparse

end Orthotope
