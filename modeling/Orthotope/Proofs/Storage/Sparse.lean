import Orthotope.Proofs.Channel.Keeps
import Orthotope.Proofs.Channel.Missing
import Orthotope.Storage.Sparse

/-!
# What sparse storage shows

Both channels of sparse storage are plain: the raw one shows `Sparse.item` and the nullable one
`Sparse.find`, and both write by `Sparse.store`. They agree if a missing element counts as the null
value of the storage (`Sparse.agrees`), which never changes (`Sparse.keeps`).

What sparse storage stands for is the list of what was last written to each position
(`Sparse.WrittenBy`), where nothing or a missing element may have been written. It shows of that what
differs from the null value (`Sparse.kept`). One request keeps this and is answered from the list
(`Sparse.WrittenBy.answer`), and the entries are the positions where the list has something to show
(`Sparse.WrittenBy.entry`, `Sparse.WrittenBy.count_eq`).
-/

namespace Orthotope.Sparse

variable {k : Kind} {shape : List Nat}

/-- A bulk write stores one element after the other. -/
theorem storeAll_eq (s : Sparse k) (p : Nat) (xs : List (Option k.Elem)) :
    s.storeAll p xs = replaceEach store s p xs := by
  induction xs generalizing s p with
  | nil => rfl
  | cons x xs ih => exact ih (s.store p x) (p + 1)

theorem plain_raw {null : k.Elem} :
    (access shape).raw.Plain (fun s => s.null = null) item fun s p x => s.store p (some x) :=
  Channel.plain_ofState (fun x hs _ => (null_store _ _ (some x)).trans hs)
    (fun _ _ => Channel.map_range_add ..)
    fun {s p xs} _ _ => by rw [storeAll_eq, Channel.replaceEach_map]

theorem plain_nullable {null : k.Elem} :
    (access shape).nullable.Plain (fun s => s.null = null) find store :=
  Channel.plain_ofState (fun x hs _ => (null_store _ _ x).trans hs)
    (fun _ _ => Channel.map_range_add ..)
    fun _ _ => storeAll_eq ..

/-- In states with a certain null value, a missing element counts as that. -/
theorem agrees (shape : List Nat) (null : k.Elem) :
    (access shape).Agrees (Access.EqWhere fun s => s.null = null) null := by
  refine Access.agrees_of_plain_eq plain_raw plain_nullable rfl ?_ (fun _ _ _ => rfl) ?_
  · rintro s p rfl
    rfl
  · rintro s p rfl -
    rw [item, find_store, null_store, if_pos rfl]
    rfl

theorem orderly (shape : List Nat) (null : k.Elem) :
    (access shape).Orderly (Access.EqWhere fun s => s.null = null) := by
  refine Access.orderly_of_plain_eq plain_raw plain_nullable rfl ?_
  intro s p q x _ _ _ hne
  rw [item, item, find_store, null_store, if_neg (Ne.symm hne)]

/-- Requests leave the null value as it is. -/
theorem keeps (shape : List Nat) (null : k.Elem) : (access shape).Keeps fun s => s.null = null :=
  ⟨plain_raw.keeps, plain_nullable.keeps⟩

/-! ## What was written -/

/-- What there is to show of something that was written: nothing of a missing element, nor of one that
is the same as the null value. -/
def kept (null : k.Elem) (x : Option k.Elem) : Option k.Elem :=
  x.filter fun x => !k.same x null

/-- Storage with a certain null value, when a list tells what was last written to each position. -/
structure WrittenBy (null : k.Elem) (s : Sparse k) (xs : List (Option k.Elem)) : Prop where
  null_eq : s.null = null
  find_eq : ∀ p, s.find p = xs[p]?.bind (kept null)

section
variable {null : k.Elem} {s : Sparse k} {xs : List (Option k.Elem)} {p : Nat} {x : Option k.Elem}

theorem writtenBy_empty (null : k.Elem) (size : Nat) (loading : Binary .double) :
    WrittenBy null (.empty null size loading) (List.replicate size none) where
  null_eq := rfl
  find_eq p := by
    rw [List.getElem?_replicate]
    split
    · simp [empty, find, kept]
    · simp [empty, find]

theorem WrittenBy.store (h : WrittenBy null s xs) (x : Option k.Elem) (hp : p < xs.length) :
    WrittenBy null (s.store p x) (xs.set p x) where
  null_eq := (null_store s p x).trans h.null_eq
  find_eq q := by
    rw [find_store, h.null_eq, List.getElem?_set, if_pos hp]
    split
    · rfl
    · exact h.find_eq q

theorem WrittenBy.find_of_getElem? (h : WrittenBy null s xs) (hx : xs[p]? = some x) :
    s.find p = kept null x := by
  rw [h.find_eq, hx]
  rfl

theorem WrittenBy.item_of_getElem? (h : WrittenBy null s xs) (hx : xs[p]? = some x) :
    s.item p = (kept null x).getD null := by
  rw [item, h.find_of_getElem? hx, h.null_eq]

/-- There are entries only for positions of the list, and none decodes to the null value. -/
theorem WrittenBy.entry (h : WrittenBy null s xs) {bits : BitVec 64}
    (hentry : s.entries[p]? = some bits) : p < xs.length ∧ k.same (k.ofBits bits) null = false := by
  have hfind : xs[p]?.bind (kept null) = some (k.ofBits bits) := by
    rw [← h.find_eq, find, hentry]
    rfl
  obtain ⟨x, hx, hkept⟩ := Option.bind_eq_some_iff.1 hfind
  obtain ⟨-, hother⟩ := Option.filter_eq_some_iff.1 hkept
  refine ⟨(List.getElem?_eq_some_iff.1 hx).1, ?_⟩
  simpa using hother

/-- All positions, on the nullable channel. -/
theorem WrittenBy.map_find (h : WrittenBy null s xs) :
    (List.range xs.length).map s.find = xs.map (kept null) := by
  apply List.ext_getElem
  · simp
  · intro p hp hp'
    have hlt : p < xs.length := by simpa using hp'
    simpa using h.find_of_getElem? (List.getElem?_eq_getElem hlt)

/-- The positions that have an entry. -/
theorem WrittenBy.keys_perm (h : WrittenBy null s xs) :
    s.entries.keys.Perm ((List.range xs.length).filter fun p => (s.find p).isSome) := by
  refine (List.perm_ext_iff_of_nodup Std.HashMap.nodup_keys (List.nodup_range.filter _)).2 fun p => ?_
  rw [Std.HashMap.mem_keys, Std.HashMap.mem_iff_isSome_getElem?, List.mem_filter, List.mem_range,
    find, Option.isSome_map]
  refine ⟨fun hsome => ⟨?_, hsome⟩, And.right⟩
  obtain ⟨bits, hentry⟩ := Option.isSome_iff_exists.1 hsome
  exact (h.entry hentry).1

/-- There are as many entries as positions with something to show. -/
theorem WrittenBy.count_eq (h : WrittenBy null s xs) :
    s.count = (xs.map (kept null)).countP Option.isSome := by
  rw [count, ← Std.HashMap.length_keys, h.keys_perm.length_eq, ← List.countP_eq_length_filter,
    ← h.map_find, List.countP_map]
  rfl

theorem WrittenBy.isEmpty_iff (h : WrittenBy null s xs) :
    s.isEmpty = true ↔ ∀ x ∈ xs, kept null x = none := by
  have hcount : s.isEmpty = (s.count == 0) := Std.HashMap.isEmpty_eq_size_eq_zero
  rw [hcount, h.count_eq]
  simp [List.countP_eq_zero]

/-! ## Requests -/

/-- What is answered to a request when a list tells what was last written to each position, and the list
that it becomes. -/
def onWritten (null : k.Elem) (xs : List (Option k.Elem)) :
    Access.Request k.Elem → Access.Answer k.Elem × List (Option k.Elem)
  | .raw r =>
    let (answer, xs) := r.onList (fun x => (kept null x).getD null) some xs
    (.raw answer, xs)
  | .nullable r =>
    let (answer, xs) := r.onList (kept null) id xs
    (.nullable answer, xs)

theorem length_onWritten (null : k.Elem) (xs : List (Option k.Elem)) (r : Access.Request k.Elem) :
    (onWritten null xs r).2.length = xs.length := by
  cases r with
  | raw r => exact r.length_onList (fun x => (kept null x).getD null) some xs
  | nullable r => exact r.length_onList (kept null) id xs

/-- Sparse storage answers a request from what was written, on both channels. -/
theorem WrittenBy.answer (h : WrittenBy null s xs) (hsize : xs.length = sizeOf shape)
    (r : Access.Request k.Elem) :
    (((access shape).answer r).run s).value = (onWritten null xs r).1 ∧
      WrittenBy null (((access shape).answer r).run s).state (onWritten null xs r).2 := by
  cases r with
  | raw r =>
    obtain ⟨hvalue, hstate⟩ := plain_raw.answer_onList (fun h hx => h.item_of_getElem? hx)
      (fun x h hp => h.store (some x) hp) h.null_eq h hsize r
    rw [Access.answer, Effect.run_map]
    exact ⟨congrArg Access.Answer.raw hvalue, hstate⟩
  | nullable r =>
    obtain ⟨hvalue, hstate⟩ := plain_nullable.answer_onList (fun h hx => h.find_of_getElem? hx)
      (fun x h hp => h.store x hp) h.null_eq h hsize r
    rw [Access.answer, Effect.run_map]
    exact ⟨congrArg Access.Answer.nullable hvalue, hstate⟩

end

end Orthotope.Sparse
