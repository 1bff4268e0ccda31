import Orthotope.Proofs.Machine.Session
import Orthotope.Proofs.Storage.Paths
import Orthotope.Proofs.Store.Requests
import Orthotope.Proofs.Store.Session

/-!
# Ragged cubes stand for nested lists

A ragged cube that was made of nested lists shows each element at the coordinates of its path and
nothing elsewhere. After any requests the storage is the lists of the beginning with other elements
(`Nested.answers_as_lists`): each is the one that was written last to its position, if any was. The
shape of the lists never changes, so that a write to a position without an element leaves no trace.

This needs a size that can be computed in 64 bits. Lists of a few dozen elements may be without one if
they are deep enough: making a cube of them then overflows, and if results wrap around, the cube is made
with a size below which some elements are not (`Nested.refuses_present_beyond_bound`).
-/

namespace Orthotope

variable {σ α : Type}

namespace Channel

variable {c : Channel σ α} {s : σ}

/-- The element at coordinates of a cube of the given shape. -/
def getAt (c : Channel σ α) (shape coords : List Nat) : Act σ α := do
  let pos ← Act.ofExcept (offset? shape coords)
  c.get pos

theorem Shows.getAt {f : Nat → α} {shape coords : List Nat} (h : c.Shows s f)
    (hsize : c.size = sizeOf shape) (hc : Within shape coords) :
    (c.getAt shape coords).outcome s = (.ok (f (offset shape coords)), s) := by
  rw [Channel.getAt, offset?_eq_ok_iff.2 ⟨hc, rfl⟩, Act.outcome_bind, Act.outcome_ofExcept,
    Act.resume_ok]
  exact h.get (hsize ▸ offset_lt hc)

end Channel

namespace Nested

variable {k : Kind} {s : Store} {slot : Nat} {shape : List Nat} {t : Nested k.Elem}

/-- Requests to a slot with nested lists leave there what they leave of the lists. -/
theorem leaf?_answers (hleaf : s.leaf? k slot = some (.ragged t))
    (requests : List (Access.Request k.Elem)) :
    (((Store.access k slot shape).answers requests).run s).state.leaf? k slot =
      some (.ragged (((access shape k.null).answers requests).run t).state) :=
  Store.state_answers (Q := fun s t => s.leaf? k slot = some (.ragged t))
    (fun hleaf => ⟨_, Store.backs_ragged hleaf, fun _ => Store.leaf?_restore hleaf⟩) requests hleaf

/-- A slot with nested lists shows what is found in them. -/
theorem shows_of_leaf (shape : List Nat) (hleaf : s.leaf? k slot = some (.ragged t)) :
    (Store.access k slot shape).nullable.Shows s (fun p => t.find (unravel shape p)) ∧
      (Store.access k slot shape).raw.Shows s fun p => (t.find (unravel shape p)).getD k.null :=
  ⟨(Store.backs_ragged hleaf).shows Access.nullable rfl ((plain_nullable shape k.null).shows trivial),
    (Store.backs_ragged hleaf).shows Access.raw rfl ((plain_raw shape k.null).shows trivial)⟩

/-- Nested lists that have a shape are put into a new slot. -/
theorem exists_leaf {items : Nested k.Elem} (hshape : items.shape = .ok shape) (w : Workspace) :
    ∃ slot w', (Session.ragged k items).run.run w =
      (.ok (.leaf k slot (Dimension.ofShape shape)), w') ∧
        w'.store.leaf? k slot = some (.ragged items) := by
  rw [Session.run_ragged, hshape]
  exact ⟨_, _, rfl, Store.leaf?_eq_some.2 Array.getElem?_push_size⟩

/-- A ragged cube is the nested lists that it was made of. Its shape has the length of the longest list
at each level, and the path of every element lies in it. If the size of the shape cannot be computed in
64 bits, a checked computation makes no cube. If it can, and in numbers without a bound always, the cube
stores that size. Whatever was read and written then, what is left in the storage are the same lists, in
which each element is the one that was written last to the position of its path, if any was. The cube
shows these elements at the coordinates of their paths, and no other position has an element: there it
reads as missing, or as null on the raw channel. -/
theorem answers_as_lists (items : Nested k.Elem) (hshape : items.shape = .ok shape) (w : Workspace) :
    (∀ level, shape[level]? = (items.sizesAt level).max?) ∧
    (∀ {x path}, At x items path → Within shape path) ∧
    (¬Measured shape →
      (Session.raggedIn .checked k items).run.run w = (.error (.misuse .overflow), w)) ∧
    ∀ m : Arithmetic, m.Measures shape →
      storedSize m shape = sizeOf shape ∧
      ∃ slot w', (Session.raggedIn m k items).run.run w =
          (.ok (.leaf k slot (Dimension.ofShape shape)), w') ∧
        ∀ requests : List (Access.Request k.Elem),
          let elements := (Cube.leaf k slot (Dimension.ofShape shape)).elements
          let done := (elements.answers requests).run w'.store
          let left := items.mapPaths fun path x =>
            (Access.lastPut (sizeOf shape) k.null requests (offset shape path)).getD x
          done.state.leaf? k slot = some (.ragged left) ∧
          ∃ shown : List Nat → Option k.Elem, (∀ path x, shown path = some x ↔ At x left path) ∧
            elements.nullable.Shows done.state (fun p => shown (unravel shape p)) ∧
            elements.raw.Shows done.state (fun p => (shown (unravel shape p)).getD k.null) ∧
            ∀ path, Within shape path →
              (elements.nullable.getAt shape path).outcome done.state =
                (.ok (shown path), done.state) ∧
              (elements.raw.getAt shape path).outcome done.state =
                (.ok ((shown path).getD k.null), done.state) := by
  refine ⟨fun level => ?_, fun hat => hat.within hshape, fun hover => ?_, fun m hm => ⟨hm.storedSize_eq, ?_⟩⟩
  · obtain ⟨-, -, hlengths⟩ := bind_eq_ok hshape
    rw [← Except.ok.inj hlengths, getElem?_lengths]
  · rw [Session.raggedIn_overflow hshape hover]
    rfl
  obtain ⟨slot, w', hrun, hnew⟩ := exists_leaf hshape w
  rw [Session.raggedIn_eq hshape hm]
  refine ⟨slot, w', hrun, fun requests => ?_⟩
  have helements : (Cube.leaf k slot (Dimension.ofShape shape)).elements =
      Store.access k slot shape := congrArg (Store.access k slot) (shapeOf_ofShape shape)
  rw [helements]
  intro _ done left
  have hleaf : done.state.leaf? k slot = some (.ragged left) := by
    rw [leaf?_answers hnew, state_answers fun hat => hat.within hshape]
  obtain ⟨hnullable, hraw⟩ := shows_of_leaf shape hleaf
  refine ⟨hleaf, left.find, fun path x => find_eq_some_iff, hnullable, hraw, fun path hpath => ?_⟩
  have hback := unravel_offset hpath
  constructor
  · rw [hnullable.getAt rfl hpath, hback]
  · rw [hraw.getAt rfl hpath, hback]

/-- In three lists of lengths two, none and one, the second element is overwritten twice, and a bulk
write reaches a position without an element. The lists keep their lengths, and the position without an
element stays missing. -/
theorem answers_as_lists_over_holes :
    let items : Nested Kind.i32.Elem := lists [values [1, 2], values [], values [3]]
    (items.shape = .ok [3, 2]) ∧
    ∃ slot w', (Session.raggedIn .wrapping .i32 items).run.run {} =
        (.ok (.leaf .i32 slot (Dimension.ofShape [3, 2])), w') ∧
      let elements := (Cube.leaf .i32 slot (Dimension.ofShape [3, 2])).elements
      let done := (elements.answers [.raw (.set 1 5), .nullable (.write 1 [some 7, some 8]),
        .nullable (.set 4 none), .raw (.write 5 [9, 9])]).run w'.store
      done.state.leaf? .i32 slot = some (.ragged (lists [values [1, 7], values [], values [0]])) ∧
      (elements.nullable.getAt [3, 2] [1, 0]).outcome done.state = (.ok none, done.state) := by
  intro items
  have hshape : items.shape = .ok [3, 2] := rfl
  refine ⟨hshape, ?_⟩
  obtain ⟨-, -, -, hall⟩ := answers_as_lists (k := .i32) items hshape {}
  obtain ⟨-, slot, w', hrun, hall⟩ := hall .wrapping (.inr (by decide))
  obtain ⟨hleft, shown, hshown, -, -, hget⟩ := hall [.raw (.set 1 5),
    .nullable (.write 1 [some 7, some 8]), .nullable (.set 4 none), .raw (.write 5 [9, 9])]
  refine ⟨slot, w', hrun, hleft, ?_⟩
  have hhole : shown [1, 0] = none := by
    refine Option.eq_none_iff_forall_ne_some.2 fun x hx => ?_
    cases find_eq_some_iff.2 ((hshown _ _).1 hx)
  rw [(hget [1, 0] ⟨by decide, by decide, trivial⟩).1, hhole]

/-- Lists of four entries in lists of four entries. Only the first entry of each list goes deeper, down to
four elements. -/
def tower : (levels : Nat) → Nested Kind.i32.Elem
  | 0 => values [7, 7, 7, 7]
  | levels + 1 => lists [tower levels, lists [], lists [], lists []]

/-- At 32 levels of four entries each, the size is 2^64. Making a cube of them overflows. If results wrap
around, the cube is made and stores the size zero, and the first element is refused. -/
theorem refuses_present_beyond_bound :
    let items := tower 31
    let shape := List.replicate 32 4
    let path := List.replicate 32 0
    items.shape = .ok shape ∧ items.find path = some 7 ∧
      (Session.raggedIn .checked .i32 items).run.run {} = (.error (.misuse .overflow), {}) ∧
      (∃ slot w', (Session.raggedIn .wrapping .i32 items).run.run {} =
        (.ok (.leaf .i32 slot (Dimension.ofShape shape)), w')) ∧
      ((accessOf (storedSize .wrapping shape) shape Kind.i32.null).raw.getAt shape path).outcome items =
        (.error (.position 0 0), items) := by
  intro items shape path
  have hshape : items.shape = .ok shape := rfl
  have hsize : storedSize .wrapping shape = 0 := by cbv
  have hover : ¬Measured shape := by decide
  refine ⟨hshape, rfl, ?_, ?_, ?_⟩
  · rw [Session.raggedIn_overflow hshape hover]
    rfl
  · exact ⟨_, _, rfl⟩
  · rw [hsize]
    rfl

end Nested

end Orthotope
