import Orthotope.Proofs.Storage.Chunks
import Orthotope.Proofs.Store.Made

/-!
# Requests to the storage of a slot

A request to a slot of the store is answered by the storage in the slot (`Store.Backs.answer`). With
that, what is known of the storage itself is known of a leaf cube.

Dense storage is made in three ways (`DenseSource`). Whichever it was, and however its elements were cut
into chunks, the leaf cube answers every list of requests as a flat list of the elements that it was
made of (`DenseSource.answers_as_list`).
-/

namespace Orthotope

namespace Store

variable {k : Kind} {s : Store} {slot : Nat} {shape : List Nat}

section
variable {σ β : Type} {a : Access σ k.Elem} {t : σ} {back : σ → Store}

theorem Backs.answer_channel (h : s.Backs slot shape a t back)
    (pick : {σ : Type} → Access σ k.Elem → Channel σ β) (r : Channel.Request β) :
    ((channel slot shape pick).answer r).run s =
      ⟨(((pick a).answer r).run t).value, (((pick a).answer r).run t).events,
        back (((pick a).answer r).run t).state⟩ := by
  cases r with
  | get p =>
    have hrun : ((channel slot shape pick).get p).run.run s = _ :=
      h.perform missing fun a => ((pick a).get p).run
    simp only [Channel.answer, Effect.run_map, hrun]
    rfl
  | set p x =>
    have hrun : ((channel slot shape pick).set p x).run.run s = _ :=
      h.perform missing fun a => ((pick a).set p x).run
    simp only [Channel.answer, Effect.run_map, hrun]
    rfl
  | read p buffer =>
    have hrun : ((channel slot shape pick).read p buffer.length).run s = _ :=
      h.perform (⟨[], missing⟩ : Transfer β) fun a => (pick a).read p buffer.length
    simp only [Channel.answer, Effect.run_map, hrun]
    rfl
  | write p xs =>
    have hrun : ((channel slot shape pick).write p xs).run.run s = _ :=
      h.perform missing fun a => ((pick a).write p xs).run
    simp only [Channel.answer, Effect.run_map, hrun]
    rfl

/-- A request to a slot is answered by the storage there, and changes that. -/
theorem Backs.answer (h : s.Backs slot shape a t back) (r : Access.Request k.Elem) :
    ((access k slot shape).answer r).run s =
      ⟨((a.answer r).run t).value, ((a.answer r).run t).events, back ((a.answer r).run t).state⟩ := by
  cases r with
  | raw r =>
    have hrun := h.answer_channel Access.raw r
    simp only [Access.answer, Effect.run_map]
    rw [show (access k slot shape).raw = channel slot shape Access.raw from rfl, hrun]
  | nullable r =>
    have hrun := h.answer_channel Access.nullable r
    simp only [Access.answer, Effect.run_map]
    rw [show (access k slot shape).nullable = channel slot shape Access.nullable from rfl, hrun]

end

/-- If every state of some storage is backed by a slot wherever `Q` relates the two, requests to the slot
leave it related to what the same requests leave of the storage. -/
theorem state_answers {σ : Type} {a : Access σ k.Elem} {Q : Store → σ → Prop}
    (h : ∀ {s t}, Q s t → ∃ back, s.Backs slot shape a t back ∧ ∀ t', Q (back t') t')
    (requests : List (Access.Request k.Elem)) {s : Store} {t : σ} (hQ : Q s t) :
    Q (((access k slot shape).answers requests).run s).state ((a.answers requests).run t).state := by
  induction requests generalizing s t with
  | nil => exact hQ
  | cons r requests ih =>
    obtain ⟨back, hbacks, hback⟩ := h hQ
    refine ih (s := (((access k slot shape).answer r).run s).state) ?_
    rw [hbacks.answer]
    exact hback _

/-! ## Dense storage -/

/-- A slot has dense storage cut from a list of as many elements as the shape has positions. -/
def KeepsList (s : Store) (k : Kind) (slot : Nat) (shape : List Nat) (shift : Nat)
    (xs : List k.Elem) : Prop :=
  xs.length = sizeOf shape ∧
    ∃ d : Dense k.Elem, s.leaf? k slot = some (.dense d) ∧ d.CutFrom shift xs

variable {shift : Nat} {xs : List k.Elem}

/-- A request to a slot with dense storage is answered as by the list. -/
theorem KeepsList.answer (h : s.KeepsList k slot shape shift xs) (r : Access.Request k.Elem) :
    (((access k slot shape).answer r).run s).value = (r.onList k.null xs).1 ∧
      KeepsList (((access k slot shape).answer r).run s).state k slot shape shift
        (r.onList k.null xs).2 := by
  obtain ⟨hlen, d, hleaf, hcut⟩ := h
  obtain ⟨hvalue, hstate⟩ := hcut.answer hlen k.null r
  rw [(backs_dense hleaf).answer]
  refine ⟨hvalue, (Access.Request.length_onList ..).trans hlen, _, leaf?_restore hleaf, hstate⟩

end Store

/-- A way to make dense storage. -/
inductive DenseSource (k : Kind) where
  /-- Null elements, cut into chunks as asked. -/
  | filled (chunkShift : Nat)
  /-- The given elements. -/
  | ofList (items : List k.Elem)
  /-- The given elements, taken over as one chunk. -/
  | wrap (items : List k.Elem)

namespace DenseSource

variable {k : Kind}

/-- Makes a leaf cube over dense storage. -/
def make (dims : List Dimension) : DenseSource k → Session (Cube k)
  | filled chunkShift => Session.filled k dims chunkShift
  | ofList items => Session.ofList k dims items
  | wrap items => Session.wrap k dims items

/-- The elements of new storage for `size` elements, if it is made. -/
def items (size : Nat) : DenseSource k → Except Error (List k.Elem)
  | filled _ => .ok (List.replicate size k.null)
  | ofList items => if items.length = size then .ok items else .error .dataLength
  | wrap items =>
    if 2 ^ Dense.maxChunkShift < size then
      .error (.chunkCapacity size (2 ^ Dense.maxChunkShift))
    else if items.length = size then .ok items
    else .error .dataLength

/-- The chunk shift of new storage. -/
def shift : DenseSource k → Nat
  | filled chunkShift => min chunkShift Dense.maxChunkShift
  | ofList _ | wrap _ => Dense.maxChunkShift

/-- Making dense storage fails as it says, or gives a leaf cube over the elements cut into chunks. -/
theorem run_make (source : DenseSource k) (dims : List Dimension) (w : Workspace) :
    match source.items (sizeOf (shapeOf dims)) with
    | .error e => (source.make dims).run.run w = (.error e, w)
    | .ok xs => ∃ slot w', (source.make dims).run.run w = (.ok (.leaf k slot dims), w') ∧
        w'.store.KeepsList k slot (shapeOf dims) source.shift xs := by
  have hleaf : ∀ {content : Dense k.Elem} {shift : Nat} {xs : List k.Elem} (w : Workspace),
      content.CutFrom shift xs → xs.length = sizeOf (shapeOf dims) →
      ∃ slot w', (Session.leaf dims (.dense content : Leaf k)).run.run w =
          (.ok (.leaf k slot dims), w') ∧ w'.store.KeepsList k slot (shapeOf dims) shift xs :=
    fun w hcut hlen =>
      ⟨_, _, rfl, hlen, _, Store.leaf?_eq_some.2 Array.getElem?_push_size, hcut⟩
  cases source with
  | filled chunkShift =>
    have hcut := Dense.cutFrom_filled k.null chunkShift (sizeOf (shapeOf dims))
    exact hleaf { w with events := _ } hcut List.length_replicate
  | ofList items =>
    simp only [DenseSource.items, make, Session.ofList, Session.ofListOf]
    rcases Decidable.em (items.length = sizeOf (shapeOf dims)) with hlen | hlen
    · rw [if_pos hlen, if_neg (not_not.2 hlen)]
      exact hleaf w (Dense.cutFrom_ofList items) hlen
    · rw [if_neg hlen, if_pos hlen]
      rfl
  | wrap items =>
    simp only [DenseSource.items, make, Session.wrap, Session.wrapOf]
    rcases Nat.lt_or_ge (2 ^ Dense.maxChunkShift) (sizeOf (shapeOf dims)) with hcapacity | hcapacity
    · rw [if_pos hcapacity, if_pos hcapacity]
      rfl
    · rw [if_neg (Nat.not_lt.2 hcapacity), if_neg (Nat.not_lt.2 hcapacity)]
      rcases Decidable.em (items.length = sizeOf (shapeOf dims)) with hlen | hlen
      · rw [if_pos hlen, if_neg (not_not.2 hlen)]
        exact hleaf w (Dense.cutFrom_wrapped (hlen ▸ hcapacity)) hlen
      · rw [if_neg hlen, if_pos hlen]
        rfl

variable {slot : Nat} {dims : List Dimension} {shift : Nat} {xs : List k.Elem} {s : Store}

/-- Every list of requests to a leaf cube over dense storage is answered as by the list. -/
theorem answers_of_keepsList (h : s.KeepsList k slot (shapeOf dims) shift xs)
    (requests : List (Access.Request k.Elem)) :
    let done := ((Cube.leaf k slot dims).elements.answers requests).run s
    let expected := Access.refer (Access.Request.onList k.null) xs requests
    done.value = expected.1 ∧ done.state.KeepsList k slot (shapeOf dims) shift expected.2 :=
  Access.answers_refine (R := fun s xs => Store.KeepsList s k slot (shapeOf dims) shift xs)
    (fun r h => h.answer r) requests h

/-- A dense cube is a flat list, whichever way it was made. If it is made at all, every list of requests
is answered as by the list of its elements, and the storage that is left is the list that is left, cut
into chunks as was asked. In that storage the loop over chunks ends without misuse for every request in
range and visits each position once. Storage made with another chunk shift answers the same. -/
theorem answers_as_list (dims : List Dimension) (w : Workspace) :
    (∀ source : DenseSource k,
      match source.items (sizeOf (shapeOf dims)) with
      | .error e => (source.make dims).run.run w = (.error e, w)
      | .ok xs => ∃ slot w', (source.make dims).run.run w = (.ok (.leaf k slot dims), w') ∧
        ∀ requests : List (Access.Request k.Elem),
          let done := ((Cube.leaf k slot dims).elements.answers requests).run w'.store
          let expected := Access.refer (Access.Request.onList k.null) xs requests
          done.value = expected.1 ∧
          ∃ d : Dense k.Elem, done.state.leaf? k slot = some (.dense d) ∧
            d.chunkShift = source.shift ∧ d.toList = expected.2 ∧
            ∀ p n, p + n ≤ sizeOf (shapeOf dims) →
              d.spansGuarded (sizeOf (shapeOf dims)) p n = .ok (d.pieces p n) ∧
              (d.pieces p n).flatMap (fun s => List.range' s.start s.length) = List.range' p n) ∧
    ∀ m n : Nat, ∃ slot v v',
      ((filled m).make dims).run.run w = (.ok (.leaf k slot dims), v) ∧
      ((filled n).make dims).run.run w = (.ok (.leaf k slot dims), v') ∧
      ∀ requests : List (Access.Request k.Elem),
        (((Cube.leaf k slot dims).elements.answers requests).run v.store).value =
          (((Cube.leaf k slot dims).elements.answers requests).run v'.store).value := by
  constructor
  · intro source
    have hmake := source.run_make dims w
    generalize source.items (sizeOf (shapeOf dims)) = items at hmake ⊢
    cases items with
    | error e => exact hmake
    | ok xs =>
      obtain ⟨slot, w', hrun, hkeeps⟩ := hmake
      refine ⟨slot, w', hrun, fun requests => ?_⟩
      obtain ⟨hvalue, hlen, d, hleaf, hcut⟩ := answers_of_keepsList hkeeps requests
      refine ⟨hvalue, d, hleaf, hcut.shift_eq, hcut.toList, fun p n hle => ?_⟩
      rw [← hlen] at hle ⊢
      exact ⟨hcut.tiled.spansGuarded_eq hle, positions_walk ..⟩
  · intro m n
    obtain ⟨slot, v, hrun, hkeeps⟩ := (filled m).run_make dims w
    obtain ⟨slot', v', hrun', hkeeps'⟩ := (filled n).run_make dims w
    have hslot : slot = slot' := by
      cases hrun
      cases hrun'
      rfl
    subst hslot
    refine ⟨slot, v, v', hrun, hrun', fun requests => ?_⟩
    rw [(answers_of_keepsList hkeeps requests).1, (answers_of_keepsList hkeeps' requests).1]

/-- Three elements written across the end of a chunk of two are read back across it. -/
theorem answers_across_chunks :
    ∃ slot w', ((filled 1).make [.ofLength 5]).run.run {} = (.ok (.leaf .i32 slot [.ofLength 5]), w') ∧
      (((Cube.leaf .i32 slot [.ofLength 5]).elements.answers
        [.raw (.write 1 [7, 8, 9]), .nullable (.read 0 [none, none, none])]).run w'.store).value =
      [.raw (.done (.ok ())), .nullable (.buffer (.ok ()) [some 0, some 7, some 8])] := by
  obtain ⟨slot, w', hrun, hall⟩ := (answers_as_list (k := .i32) [.ofLength 5] {}).1 (.filled 1)
  obtain ⟨hvalue, -⟩ := hall [.raw (.write 1 [7, 8, 9]), .nullable (.read 0 [none, none, none])]
  exact ⟨slot, w', hrun, hvalue⟩

end DenseSource

end Orthotope
