import Orthotope.Proofs.Cube.Alike
import Orthotope.Proofs.Store.Mapped

/-!
# Bulk transfers of mapped files

A cube over a mapped file moves many elements as one stretch of bytes. Single accesses, one after the
other, move the same elements, whatever the file holds and however long it is: a read gives the elements
that the bytes stand for (`Mapping.outcome_readSpan_eq`), and a write changes the file once instead of
once for each element (`Mapping.outcome_write`, `Mapping.outcome_write_stepwise`), with the same bytes in
the end (`Mapping.editEach_same`).

The two ways differ at one kind of request. A mapping that may only be read refuses a bulk write before it
looks at the elements, also if there are none, while one element after the other there is nothing to
refuse (`Mapping.bulk_as_single`).
-/

namespace Orthotope

variable {σ α : Type}

namespace Channel

variable {c : Channel σ α} {inv : σ → Prop} {item : σ → Nat → α} {replace : σ → Nat → α → σ} {s : σ}

theorem Plain.outcome_readSpan (h : c.Plain inv item replace) (hs : inv s) (p n : Nat) :
    (c.readSpan ⟨p, n⟩).outcome s =
      (if p + n ≤ c.size then .ok ((List.range' p n).map (item s))
        else .error (outOfRange c.size p n), s) := by
  rw [readSpan_eq]
  show (Transfer.whole ((c.read p n).run s).value, ((c.read p n).run s).state) = _
  split
  · next hle =>
    rw [h.read hs hle]
    rfl
  · next hgt =>
    rw [h.read_error hgt]
    rfl

theorem Plain.outcome_write (h : c.Plain inv item replace) (hs : inv s) (p : Nat) (xs : List α) :
    (c.write p xs).outcome s =
      if p + xs.length ≤ c.size then (.ok (), replaceEach replace s p xs)
      else (.error (outOfRange c.size p xs.length), s) := by
  rw [Act.outcome]
  split
  · next hle => rw [h.write hs hle]
  · next hgt => rw [h.write_error hgt]

end Channel

namespace Mapping

variable {k : Kind} {m : Mapping} {size : Nat} {files files' : Files}

/-- Whatever the files are, elements are found by their bytes and replaced by edits. -/
theorem plain_any (m : Mapping) (k : Kind) (size : Nat) :
    (m.single k size).Plain (fun _ => True) (fun files p => item k (files.contents m.file) p)
      fun files p x => m.edit k files p [x] :=
  Channel.plain_ofState (fun _ _ _ => trivial) (fun _ _ => items_eq ..) fun _ _ => rfl

/-- A bulk read gives the elements that the bytes stand for and changes nothing. -/
theorem outcome_readSpan (m : Mapping) (k : Kind) (size p n : Nat) (files : Files) :
    ((m.channel k size).readSpan ⟨p, n⟩).outcome files =
      (if p + n ≤ size then .ok ((List.range' p n).map (item k (files.contents m.file)))
        else .error (outOfRange size p n), files) :=
  (m.plain_any k size).outcome_readSpan trivial p n

/-- Reading one element after the other gives the same. -/
theorem outcome_readSpan_stepwise (m : Mapping) (k : Kind) (size p n : Nat) (files : Files) :
    ((m.channel k size).stepwise.readSpan ⟨p, n⟩).outcome files =
      ((m.channel k size).readSpan ⟨p, n⟩).outcome files := by
  have hsingle : (m.channel k size).stepwise.readSpan ⟨p, n⟩ =
      (m.single k size).stepwise.readSpan ⟨p, n⟩ :=
    Channel.readSpan_stepwise_congr (c := m.channel k size) (d := m.single k size) (fun _ _ => rfl)
      rfl p n
  rw [hsingle, outcome_readSpan]
  exact (m.plain_any k size).stepwise.outcome_readSpan trivial p n

/-- A bulk write in range changes the file once, or is refused. -/
theorem outcome_write (m : Mapping) (size p : Nat) (xs : List k.Elem) (files : Files) :
    ((m.channel k size).write p xs).outcome files =
      if p + xs.length ≤ size then
        if m.writable then (.ok (), m.edit k files p xs) else (.error .readOnly, files)
      else (.error (outOfRange size p xs.length), files) := by
  have hrun : ((m.channel k size).write p xs).run.run files = _ :=
    Channel.run_writeWithin size p xs.length _ files
  rw [Act.outcome, hrun, run_change]
  split
  · split <;> rfl
  · rfl

/-- If the file may be written, single accesses are those that change the file once for each element. -/
theorem stepwise_of_writable (hm : m.writable = true) (k : Kind) (size : Nat) :
    (m.channel k size).stepwise = (m.single k size).stepwise := by
  have hset : (m.channel k size).set = (m.single k size).set := by
    simp only [channel, change, hm, if_true]
    rfl
  exact Channel.stepwise_congr rfl rfl hset

theorem outcome_set_readOnly (hm : m.writable = false) {p : Nat} (hp : p < size) (x : k.Elem)
    (files : Files) : ((m.channel k size).set p x).outcome files = (.error .readOnly, files) := by
  have hrun : ((m.channel k size).set p x).run.run files = _ := Channel.run_checked size p _ files
  rw [Act.outcome, hrun, if_pos hp, run_change, hm]
  rfl

/-- Writing one element after the other changes the file once for each, or is refused at the first. -/
theorem outcome_write_stepwise (m : Mapping) (size p : Nat) (xs : List k.Elem) (files : Files) :
    ((m.channel k size).stepwise.write p xs).outcome files =
      if p + xs.length ≤ size then
        if m.writable then
          (.ok (), replaceEach (fun files p x => m.edit k files p [x]) files p xs)
        else if xs = [] then (.ok (), files)
        else (.error .readOnly, files)
      else (.error (outOfRange size p xs.length), files) := by
  cases hm : m.writable with
  | true =>
    rw [stepwise_of_writable hm]
    exact (m.plain_any k size).stepwise.outcome_write trivial p xs
  | false =>
    have hrun : ((m.channel k size).stepwise.write p xs).run.run files = _ :=
      Channel.run_writeWithin size p xs.length _ files
    rw [Act.outcome, hrun]
    split
    · next hle =>
      cases xs with
      | nil => rfl
      | cons x xs =>
        rw [List.length_cons] at hle
        show ((m.channel k size).writeEach p (x :: xs)).outcome files = _
        rw [Channel.writeEach, Act.outcome_bind, outcome_set_readOnly hm (by omega)]
        rfl
    · rfl

/-- A bulk write leaves the bytes that writing one element after the other leaves, and is answered like
that unless it is of no elements and the file may only be read. -/
theorem write_as_single (m : Mapping) (size p : Nat) (xs : List k.Elem) (hsame : files.Same files') :
    let bulk := ((m.channel k size).write p xs).outcome files
    let single := ((m.channel k size).stepwise.write p xs).outcome files'
    (bulk.1 = single.1 ↔ m.writable = true ∨ xs ≠ [] ∨ size < p) ∧ bulk.2.Same single.2 := by
  intro bulk single
  have hbulk : bulk = _ := outcome_write m size p xs files
  have hsingle : single = _ := outcome_write_stepwise m size p xs files'
  clear_value bulk single
  by_cases hle : p + xs.length ≤ size
  case neg =>
    rw [if_neg hle] at hbulk hsingle
    subst hbulk hsingle
    refine ⟨iff_of_true rfl (.inr ?_), hsame⟩
    cases xs with
    | nil => exact .inr (Nat.not_le.1 hle)
    | cons x xs => exact .inl (List.cons_ne_nil x xs)
  rw [if_pos hle] at hbulk hsingle
  cases hm : m.writable with
  | true =>
    rw [hm] at hbulk hsingle
    subst hbulk hsingle
    refine ⟨iff_of_true rfl (.inl rfl), fun name => ?_⟩
    exact (edit_same hsame p xs name).trans (editEach_same files' p xs name).symm
  | false =>
    rw [hm] at hbulk hsingle
    cases xs with
    | nil =>
      subst hbulk hsingle
      refine ⟨iff_of_false (fun heq => by cases heq) ?_, hsame⟩
      rintro (h | h | h)
      · cases h
      · exact h rfl
      · exact Nat.not_lt.2 hle h
    | cons x xs =>
      subst hbulk hsingle
      exact ⟨iff_of_true rfl (.inr (.inl (List.cons_ne_nil x xs))), hsame⟩

section
variable {s t : Store} {slot : Nat} {dims : List Dimension}

/-- What a bulk request to a slot with a mapping comes to, and one element after the other. -/
theorem outcome_slot (hleaf : s.leaf? k slot = some (.mapped m)) (dims : List Dimension) (p : Nat) :
    let c := (Cube.leaf k slot dims).elements.raw
    let d := m.channel k (sizeOf (shapeOf dims))
    let back := fun files : Files => { s with files }
    (∀ n files, (c.readSpan ⟨p, n⟩).outcome (back files) =
        (((d.readSpan ⟨p, n⟩).outcome files).1, back ((d.readSpan ⟨p, n⟩).outcome files).2) ∧
      (c.stepwise.readSpan ⟨p, n⟩).outcome (back files) =
        (((d.stepwise.readSpan ⟨p, n⟩).outcome files).1,
          back ((d.stepwise.readSpan ⟨p, n⟩).outcome files).2)) ∧
    ∀ xs files, (c.write p xs).outcome (back files) =
        (((d.write p xs).outcome files).1, back ((d.write p xs).outcome files).2) ∧
      (c.stepwise.write p xs).outcome (back files) =
        (((d.stepwise.write p xs).outcome files).1,
          back ((d.stepwise.write p xs).outcome files).2) := by
  intro c d back
  have hback : ∀ files, (back files).Backs slot (shapeOf dims) (m.access k (shapeOf dims)) files back :=
    fun files => backs (s := back files) hleaf
  obtain ⟨hreads, hwrites⟩ := Store.mirrors_stepwise Access.raw hback rfl p
  refine ⟨fun n files => ⟨?_, hreads n files⟩, fun xs files => ⟨?_, hwrites xs files⟩⟩
  · exact (hback files).outcome_readSpan Access.raw p n
  · exact (hback files).outcome fun a => a.raw.write p xs

/-- A write of no elements in range is refused in bulk if the file may only be read, and done one element
after the other. -/
theorem write_nil_readOnly (hleaf : s.leaf? k slot = some (.mapped m)) (hm : m.writable = false) {p : Nat}
    (hle : p ≤ sizeOf (shapeOf dims)) :
    let c := (Cube.leaf k slot dims).elements.raw
    (c.write p []).outcome s = (.error .readOnly, s) ∧
      (c.stepwise.write p []).outcome s = (.ok (), s) := by
  intro c
  obtain ⟨hbulk, hsingle⟩ := (outcome_slot hleaf dims p).2 [] s.files
  have hbulk : (c.write p []).outcome s = _ := hbulk
  have hsingle : (c.stepwise.write p []).outcome s = _ := hsingle
  have hle : p + ([] : List k.Elem).length ≤ sizeOf (shapeOf dims) := hle
  rw [hbulk, hsingle, outcome_write, outcome_write_stepwise, hm, if_pos hle, if_pos hle]
  exact ⟨rfl, rfl⟩

/-- On a mapped file, bulk transfers do as single accesses. From stores with the same bytes, whatever
they are and whether or not they may be written, both give the same elements or fail alike, and leave
the same bytes. The one exception is a write of no elements in range if the file may only be read: it is
refused as any write is, while one element after the other there is nothing to refuse. -/
theorem bulk_as_single (hleaf : s.leaf? k slot = some (.mapped m)) (hsame : s.Same t)
    (dims : List Dimension) :
    let c := (Cube.leaf k slot dims).elements.raw
    (∀ p n,
      ((c.readSpan ⟨p, n⟩).outcome s).1 = ((c.stepwise.readSpan ⟨p, n⟩).outcome t).1 ∧
      ((c.readSpan ⟨p, n⟩).outcome s).2 = s ∧ ((c.stepwise.readSpan ⟨p, n⟩).outcome t).2 = t) ∧
    (∀ p xs,
      (((c.write p xs).outcome s).1 = ((c.stepwise.write p xs).outcome t).1 ↔
        m.writable = true ∨ xs ≠ [] ∨ c.size < p) ∧
      ((c.write p xs).outcome s).2.Same ((c.stepwise.write p xs).outcome t).2) ∧
    (m.writable = false → ∀ p ≤ c.size, (c.write p []).outcome s = (.error .readOnly, s) ∧
      (c.stepwise.write p []).outcome t = (.ok (), t)) := by
  obtain ⟨leaves, files'⟩ := t
  obtain ⟨rfl, hfiles⟩ : s.leaves = leaves ∧ s.files.Same files' := hsame
  intro c
  have hslot := fun p => outcome_slot hleaf dims p
  refine ⟨fun p n => ?read, fun p xs => ?write, fun hm p hle => ?refused⟩
  case read =>
    obtain ⟨hbulk, -⟩ := (hslot p).1 n s.files
    obtain ⟨-, hsingle⟩ := (hslot p).1 n files'
    rw [outcome_readSpan] at hbulk
    rw [outcome_readSpan_stepwise, outcome_readSpan, ← contents_same hfiles] at hsingle
    exact ⟨(congrArg Prod.fst hbulk).trans (congrArg Prod.fst hsingle).symm,
      congrArg Prod.snd hbulk, congrArg Prod.snd hsingle⟩
  case write =>
    obtain ⟨hanswer, hleft⟩ := write_as_single m (sizeOf (shapeOf dims)) p xs hfiles
    have hbulk : (c.write p xs).outcome s = _ := ((hslot p).2 xs s.files).1
    have hsingle : (c.stepwise.write p xs).outcome ⟨s.leaves, files'⟩ = _ := ((hslot p).2 xs files').2
    rw [hbulk, hsingle]
    exact ⟨hanswer, rfl, hleft⟩
  case refused =>
    exact ⟨(write_nil_readOnly hleaf hm hle).1,
      (write_nil_readOnly (s := ⟨s.leaves, files'⟩) hleaf hm hle).2⟩

/-- Two elements are written into a new file. -/
theorem bulk_as_single_in_new_file : ∃ slot w,
    let cube : Cube .i32 := .leaf .i32 slot (Dimension.ofShape [3])
    let c := cube.elements.raw
    (Session.createFile .i32 "a" [3]).run.run {} = (.ok cube, w) ∧
      ((c.write 1 [258, 7]).outcome w.store).1 = ((c.stepwise.write 1 [258, 7]).outcome w.store).1 ∧
      ((c.write 1 [258, 7]).outcome w.store).2.Same ((c.stepwise.write 1 [258, 7]).outcome w.store).2 := by
  have hmade : ∃ slot w,
      (Session.createFile .i32 "a" [3]).run.run {} =
        (.ok (.leaf .i32 slot (Dimension.ofShape [3])), w) ∧
      w.store.leaf? .i32 slot = some (.mapped ⟨"a", true⟩) := by
    rw [Session.run_createFile, Files.create_eq_ok (by decide)]
    exact ⟨_, _, rfl, Store.leaf?_eq_some.2 Array.getElem?_push_size⟩
  obtain ⟨slot, w, hrun, hleaf⟩ := hmade
  obtain ⟨-, hwrite, -⟩ := bulk_as_single hleaf ⟨rfl, fun _ => rfl⟩ (Dimension.ofShape [3])
  obtain ⟨hanswer, hleft⟩ := hwrite 1 [258, 7]
  exact ⟨slot, w, hrun, hanswer.2 (.inl rfl), hleft⟩

/-- No elements are written to a file that was opened to be read. -/
theorem empty_write_refused_in_bulk : ∃ slot w,
    let cube : Cube .i32 := .leaf .i32 slot (Dimension.ofShape [1])
    let c := cube.elements.raw
    (do
      Session.putFile "a" #[2, 1, 0, 0]
      Session.openFile .i32 "a" [1] false).run.run {} = (.ok cube, w) ∧
      (c.write 0 []).outcome w.store = (.error .readOnly, w.store) ∧
      (c.stepwise.write 0 []).outcome w.store = (.ok (), w.store) := by
  let files : Files := (∅ : Files).insert "a" #[2, 1, 0, 0]
  have hfiles : files.open "a" .i32 (sizeOf [1]) false = .ok files :=
    (Files.open_eq (by decide) Std.HashMap.getElem?_insert_self).trans (if_pos (by decide))
  have hmade : ∃ slot w,
      (Session.openFile .i32 "a" [1] false).run.run { store := { files } } =
        (.ok (.leaf .i32 slot (Dimension.ofShape [1])), w) ∧
      w.store.leaf? .i32 slot = some (.mapped ⟨"a", false⟩) := by
    rw [Session.run_openFile, hfiles]
    exact ⟨_, _, rfl, Store.leaf?_eq_some.2 Array.getElem?_push_size⟩
  obtain ⟨slot, w, hrun, hleaf⟩ := hmade
  exact ⟨slot, w, hrun, write_nil_readOnly hleaf rfl (Nat.zero_le _)⟩

end

end Mapping

end Orthotope
