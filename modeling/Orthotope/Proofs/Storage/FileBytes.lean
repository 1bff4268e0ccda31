import Orthotope.Proofs.Channel.Written
import Orthotope.Proofs.Storage.Gapless

/-!
# Mapped files byte by byte

A request to a mapping comes to one of two things (`Mapping.answer_cases`). Either it is a write in range
that was done, and the file is edited, or nothing has changed. A mapping that may be written does every
write in range, one that may only be read does none but of no elements.

An edit replaces a stretch of the bytes of one file and leaves everything else (`Files.Replaced`,
`Mapping.replaced_edit`). Seen by elements, it puts those that are written to their positions
(`Mapping.item_overwrite_placed`). A byte that a request does not replace (`Mapping.Touches`) stays
(`Mapping.answer_spares`).

A file that is opened is extended with zeros if it is too short (`Files.Extended`), which opening does or
fails (`Files.open_eq_ok`, `Files.extended_of_open`).
-/

namespace Orthotope

section
variable {α : Type}

theorem toList_overwrite_eq (xs : Array α) (i : Nat) (ys : List α) :
    (overwrite xs i ys).toList = replaceEach List.set xs.toList i ys := by
  induction ys generalizing xs i with
  | nil => rfl
  | cons y ys ih => rw [overwrite, ih, Array.toList_setIfInBounds, replaceEach]

/-- Overwriting in range replaces a stretch of the entries. -/
theorem toList_overwrite {xs : Array α} {i : Nat} {ys : List α} (h : i + ys.length ≤ xs.size) :
    (overwrite xs i ys).toList = xs.toList.take i ++ ys ++ xs.toList.drop (i + ys.length) := by
  rw [toList_overwrite_eq, Channel.replaceEach_set _ _ h]

end

theorem Kind.width_pos (k : Kind) : 0 < k.width := by cases k <;> decide

theorem Kind.length_flatMap_toBytes (k : Kind) (xs : List k.Elem) :
    (xs.flatMap k.toBytes).length = xs.length * k.width := by
  simp [List.length_flatMap]

/-- One file has new bytes from the place `start` on, and nothing else has changed. -/
structure Files.Replaced (files : Files) (name : String) (start : Nat) (new : List UInt8)
    (files' : Files) : Prop where
  file : ∃ bytes, files[name]? = some bytes ∧ start + new.length ≤ bytes.size ∧
    files'[name]? =
      some (bytes.toList.take start ++ new ++ bytes.toList.drop (start + new.length)).toArray
  others : ∀ other, other ≠ name → files'[other]? = files[other]?

namespace Mapping

variable {k : Kind} {m : Mapping} {bytes : Array UInt8} {files files' : Files} {size p : Nat}
  {xs : List k.Elem} {shape : List Nat}

/-- The element at a position is that of its bytes. -/
theorem item_eq (k : Kind) (bytes : Array UInt8) (p : Nat) :
    item k bytes p = k.ofBytes (bytes.extract (p * k.width) ((p + 1) * k.width)).toList := by
  rw [item, bytesAt, Nat.succ_mul]

/-- Elements that are written are found at their positions, and all others stay. -/
theorem item_overwrite_placed (hsize : size * k.width ≤ bytes.size) (hle : p + xs.length ≤ size)
    (q : Nat) : item k (overwrite k bytes p xs) q = (placed p xs q).getD (item k bytes q) := by
  rw [overwrite_eq]
  induction xs generalizing bytes p with
  | nil => rw [placed_nil, replaceEach, Option.getD_none]
  | cons x xs ih =>
    rw [List.length_cons] at hle
    rw [replaceEach, ih (by rwa [size_overwrite_items]) (by omega), item_overwrite (by omega) hsize,
      placed_cons]
    split
    · next heq =>
      rw [placed_of_not_mem (.inl (by omega))]
      rfl
    · rfl

/-- An element is known by its bytes. -/
theorem item_congr {bytes' : Array UInt8} (hsize : (p + 1) * k.width ≤ bytes.size)
    (hsize' : bytes.size ≤ bytes'.size)
    (h : ∀ j, p * k.width ≤ j → j < (p + 1) * k.width → bytes'[j]? = bytes[j]?) :
    item k bytes' p = item k bytes p := by
  rw [item_eq, item_eq]
  congr 2
  apply Array.ext_getElem?
  intro j
  rw [Array.getElem?_extract, Array.getElem?_extract, Nat.min_eq_left hsize,
    Nat.min_eq_left (Nat.le_trans hsize hsize')]
  split
  · exact h _ (Nat.le_add_right ..) (by omega)
  · rfl

/-- The bytes of elements in range lie within the file. -/
theorem stretch_le (hsize : size * k.width ≤ bytes.size) (hle : p + xs.length ≤ size) :
    p * k.width + (xs.flatMap k.toBytes).length ≤ bytes.size := by
  rw [k.length_flatMap_toBytes, ← Nat.add_mul]
  exact Nat.le_trans (Nat.mul_le_mul_right k.width hle) hsize

/-- An edit replaces the bytes of the elements. -/
theorem replaced_edit (h : m.Backed k size files) (hle : p + xs.length ≤ size)
    (hsame : files'.Same (m.edit k files p xs)) :
    files.Replaced m.file (p * k.width) (xs.flatMap k.toBytes) files' := by
  obtain ⟨bytes, hfile, hsize⟩ := h
  have hfit := stretch_le hsize hle
  refine ⟨⟨bytes, hfile, hfit, ?_⟩, fun other hne => ?_⟩
  · rw [hsame, getElem?_edit_self hfile, overwrite, ← toList_overwrite hfit]
  · rw [hsame, getElem?_edit, if_neg (Ne.symm hne)]

/-! ## One request -/

/-- What a request to a mapping of a file can come to. Either it is a write in range that was done, which it
is of no elements if the mapping may only be read. Or it was not done and nothing has changed; if the
mapping may be written, it is no write in range then. -/
def Came (m : Mapping) (k : Kind) (size : Nat) (files : Files) (r : Access.Request k.Elem)
    (done : Outcome Files (Access.Answer k.Elem)) : Prop :=
  (done.value.wrote ∧ ∃ p xs, r.writes k.null = some (p, xs) ∧ p + xs.length ≤ size ∧
    (m.writable = true ∨ xs = []) ∧ done.state.Same (m.edit k files p xs)) ∨
  (¬ done.value.wrote ∧ done.state = files ∧
    (m.writable = true → ∀ p xs, r.writes k.null = some (p, xs) → ¬ p + xs.length ≤ size))

/-- Changing the file once for each element comes to the same as changing it once. -/
theorem came_single (hm : m.writable = true) (h : m.Backed k (sizeOf shape) files) (r : Access.Request k.Elem) :
    m.Came k (sizeOf shape) files r (((m.accessSingle k shape).answer r).run files) := by
  have hraw := m.plain_single k (sizeOf shape)
  have hboth : (m.accessSingle k shape).PlainBoth (m.Backed k (sizeOf shape))
      (fun files p x => m.edit k files p [x]) k.null :=
    ⟨⟨_, hraw⟩, ⟨_, (hraw.orNull k.null).stepwise⟩, rfl⟩
  rcases (hboth.answer_cases h r).2 with ⟨hwrote, p, xs, hwrites, hle, hstate⟩ | ⟨hnot, hstate, hgt⟩
  · refine .inl ⟨hwrote, p, xs, hwrites, hle, .inl hm, ?_⟩
    rw [hstate]
    exact editEach_same files p xs
  · exact .inr ⟨hnot, hstate, fun _ => hgt⟩

theorem came_write (hm : m.writable = true) (p : Nat) (xs : List k.Elem) :
    m.Came k (sizeOf shape) files (.raw (.write p xs))
      (((m.access k shape).answer (.raw (.write p xs))).run files) := by
  have hrun : ((m.access k shape).raw.write p xs).run.run files = _ :=
    Channel.run_writeWithin (sizeOf shape) p xs.length _ files
  simp only [Access.answer, Channel.answer, Effect.run_map, hrun, run_change, if_pos hm]
  split
  · next hle => exact .inl ⟨.inl rfl, p, xs, rfl, hle, .inl hm, fun _ => rfl⟩
  · next hgt =>
    refine .inr ⟨by simp [Access.Answer.wrote], rfl, fun _ => ?_⟩
    rintro _ _ ⟨rfl⟩
    exact hgt

theorem came_writable (hm : m.writable = true) (h : m.Backed k (sizeOf shape) files)
    (r : Access.Request k.Elem) :
    m.Came k (sizeOf shape) files r (((m.access k shape).answer r).run files) := by
  rcases r with (p | ⟨p, x⟩ | ⟨p, buffer⟩ | ⟨p, xs⟩) | r
  case raw.write => exact came_write hm p xs
  -- every other request goes to a channel that also changes the file once for each element
  all_goals
    rw [access_eq hm]
    exact came_single hm h _

/-- A mapping that may only be read fails to replace an element. -/
theorem set_readOnly (hm : m.writable = false) (size : Nat) (files : Files) (p : Nat) (x : k.Elem) :
    ∃ e, ((m.channel k size).set p x).run.run files = ⟨.error e, [], files⟩ := by
  simp only [channel, Channel.run_checked, run_change, hm]
  split <;> exact ⟨_, rfl⟩

/-- A mapping that may only be read does no write but of no elements. -/
theorem writes_of_wrote (hm : m.writable = false) {r : Access.Request k.Elem}
    (hwrote : (((m.access k shape).answer r).run files).value.wrote) :
    ∃ p, r.writes k.null = some (p, []) ∧ p ≤ sizeOf shape := by
  rcases r with (p | ⟨p, x⟩ | ⟨p, buffer⟩ | ⟨p, xs⟩) | (p | ⟨p, x⟩ | ⟨p, buffer⟩ | ⟨p, xs⟩)
  case raw.get | raw.read | nullable.get | nullable.read =>
    simp [Access.answer, Channel.answer, Access.Answer.wrote] at hwrote
  case raw.set =>
    obtain ⟨e, hset⟩ := set_readOnly hm (sizeOf shape) files p x
    simp [Access.answer, Channel.answer, Access.Answer.wrote, access, hset] at hwrote
  case raw.write =>
    have hrun : ((m.access k shape).raw.write p xs).run.run files = _ :=
      Channel.run_writeWithin (sizeOf shape) p xs.length _ files
    simp only [Access.answer, Channel.answer, Effect.run_map, hrun, run_change, hm] at hwrote
    split at hwrote <;> simp [Access.Answer.wrote] at hwrote
  case nullable.set =>
    have hset : ∃ e, ((m.access k shape).nullable.set p x).run.run files = ⟨.error e, [], files⟩ :=
      set_readOnly hm (sizeOf shape) files p (x.getD k.null)
    obtain ⟨e, hset⟩ := hset
    simp [Access.answer, Channel.answer, Access.Answer.wrote, hset] at hwrote
  case nullable.write =>
    have hrun : ((m.access k shape).nullable.write p xs).run.run files = _ :=
      Channel.run_writeWithin (sizeOf shape) p xs.length _ files
    simp only [Access.answer, Channel.answer, Effect.run_map, hrun] at hwrote
    split at hwrote
    · next hle =>
      cases xs with
      | nil => exact ⟨p, rfl, hle⟩
      | cons x xs =>
        have hset : ∃ e, (((m.channel k (sizeOf shape)).orNull k.null).set p x).run.run files =
            ⟨.error e, [], files⟩ := set_readOnly hm (sizeOf shape) files p (x.getD k.null)
        obtain ⟨e, hset⟩ := hset
        rw [Channel.run_writeEach_cons, Effect.run_bind, hset] at hwrote
        simp [Access.Answer.wrote, ExceptT.bindCont] at hwrote
    · simp [Access.Answer.wrote] at hwrote

/-- A mapping that may only be read never changes the files. -/
theorem keeps_readOnly (hm : m.writable = false) (k : Kind) (shape : List Nat) (files : Files) :
    (m.access k shape).Keeps (· = files) := by
  refine m.keeps_of_edit k shape fun hwritable => ?_
  rw [hm] at hwritable
  cases hwritable

/-- A request to a mapping of a file is a write in range that is done, or changes nothing. -/
theorem answer_cases (shape : List Nat) (h : m.Backed k (sizeOf shape) files)
    (r : Access.Request k.Elem) :
    m.Came k (sizeOf shape) files r (((m.access k shape).answer r).run files) := by
  rcases hm : m.writable with _ | _
  case true => exact came_writable hm h r
  have hstate := (keeps_readOnly hm k shape files).answer rfl r
  by_cases hwrote : (((m.access k shape).answer r).run files).value.wrote
  · obtain ⟨p, hwrites, hle⟩ := writes_of_wrote hm hwrote
    refine .inl ⟨hwrote, p, [], hwrites, hle, .inr rfl, ?_⟩
    rw [hstate]
    exact editEach_same files p []
  · exact .inr ⟨hwrote, hstate, fun hwritable => by simp [hm] at hwritable⟩

/-- The request replaces a byte of a file. -/
def Touches (m : Mapping) (k : Kind) (size : Nat) (r : Access.Request k.Elem) (name : String) (j : Nat) :
    Prop :=
  m.writable = true ∧ m.file = name ∧ ∃ p xs, r.writes k.null = some (p, xs) ∧ p + xs.length ≤ size ∧
    p * k.width ≤ j ∧ j < (p + xs.length) * k.width

/-- A request leaves every file as long as it is, and the bytes that it does not replace. -/
theorem answer_spares (shape : List Nat) (h : m.Backed k (sizeOf shape) files)
    (r : Access.Request k.Elem) {name : String} (hfile : files[name]? = some bytes) :
    ∃ bytes', (((m.access k shape).answer r).run files).state[name]? = some bytes' ∧
      bytes'.size = bytes.size ∧
      ∀ j, ¬ m.Touches k (sizeOf shape) r name j → bytes'[j]? = bytes[j]? := by
  rcases answer_cases shape h r with ⟨-, p, xs, hwrites, hle, hm, hsame⟩ | ⟨-, hstate, -⟩
  · by_cases hname : m.file = name
    · subst hname
      obtain ⟨_, hsome, hsize⟩ := h
      cases hfile.symm.trans hsome
      refine ⟨_, (hsame m.file).trans (getElem?_edit_self hfile p xs), size_overwrite_items p xs,
        fun j hj => ?_⟩
      rw [overwrite, getElem?_overwrite (stretch_le hsize hle), k.length_flatMap_toBytes,
        ← Nat.add_mul]
      refine if_neg fun hin => ?_
      rcases hm with hm | rfl
      · exact hj ⟨hm, rfl, p, xs, hwrites, hle, hin⟩
      · exact Nat.not_lt.2 hin.1 hin.2
    · refine ⟨bytes, ?_, rfl, fun _ _ => rfl⟩
      rw [hsame, getElem?_edit, if_neg hname, hfile]
  · refine ⟨bytes, ?_, rfl, fun _ _ => rfl⟩
    rw [hstate, hfile]

end Mapping

/-! ## New mappings -/

namespace Files

variable {k : Kind} {files files' : Files} {name : String} {size needed : Nat} {bytes : Array UInt8}
  {writable : Bool}

/-- One file has zeros behind its bytes if it was shorter than needed, and nothing else has changed. -/
structure Extended (files : Files) (name : String) (needed : Nat) (files' : Files) : Prop where
  file : ∃ bytes, files[name]? = some bytes ∧
    files'[name]? = some (bytes ++ Array.replicate (needed - bytes.size) 0)
  others : ∀ other, other ≠ name → files'[other]? = files[other]?

/-- The bytes that there were stay where they are. -/
theorem Extended.spares (h : files.Extended name needed files') {other : String}
    (hfile : files[other]? = some bytes) :
    ∃ bytes', files'[other]? = some bytes' ∧ bytes.size ≤ bytes'.size ∧
      ∀ j < bytes.size, bytes'[j]? = bytes[j]? := by
  obtain ⟨old, hold, hnew⟩ := h.file
  by_cases heq : other = name
  · subst heq
    cases hold.symm.trans hfile
    refine ⟨_, hnew, ?_, fun j hj => Array.getElem?_append_left hj⟩
    rw [Array.size_append]
    exact Nat.le_add_right ..
  · exact ⟨bytes, (h.others other heq).trans hfile, Nat.le_refl _, fun _ _ => rfl⟩

theorem Extended.grown (h : files.Extended name needed files') : files.Grown files' := by
  intro other bytes hfile
  obtain ⟨bytes', hfile', hsize, -⟩ := h.spares hfile
  exact ⟨bytes', hfile', hsize⟩

theorem Extended.backed (h : files.Extended name (size * k.width) files') :
    (⟨name, writable⟩ : Mapping).Backed k size files' := by
  obtain ⟨bytes, -, hnew⟩ := h.file
  refine ⟨_, hnew, ?_⟩
  rw [Array.size_append, Array.size_replicate]
  omega

/-- A file that is made for a cube has the bytes of its elements, all zero. -/
theorem create_eq_ok (h : size * k.width ≤ maxPosition) : files.create name k size =
    .ok (size * k.width, files.insert name (Array.replicate (size * k.width) 0)) := by
  rw [create, byteCount, if_pos h]
  rfl

theorem create_eq_error (h : maxPosition < size * k.width) :
    files.create name k size = .error (.argument s!"{size} elements are too many to map") := by
  rw [create, byteCount, if_neg (Nat.not_le.2 h)]
  rfl

theorem open_eq_error (h : maxPosition < size * k.width) :
    files.open name k size writable = .error (.argument s!"{size} elements are too many to map") := by
  rw [«open», byteCount, if_neg (Nat.not_le.2 h)]
  rfl

theorem open_eq_missing (h : size * k.width ≤ maxPosition) (hfile : files[name]? = none) :
    files.open name k size writable = .error (.fileMissing name) := by
  unfold «open» byteCount
  rw [if_pos h, hfile]
  rfl

theorem open_eq (h : size * k.width ≤ maxPosition) (hfile : files[name]? = some bytes) :
    files.open name k size writable =
      if size * k.width ≤ bytes.size then .ok files
      else if writable then
        .ok (files.insert name (bytes ++ Array.replicate (size * k.width - bytes.size) 0))
      else .error (.fileShort name bytes.size (size * k.width)) := by
  unfold «open» byteCount
  rw [if_pos h, hfile]
  rfl

/-- A file that may only be read and is too short is not opened. -/
theorem open_eq_short (h : size * k.width ≤ maxPosition) (hfile : files[name]? = some bytes)
    (hlt : bytes.size < size * k.width) :
    files.open name k size false = .error (.fileShort name bytes.size (size * k.width)) := by
  rw [open_eq h hfile, if_neg (Nat.not_le.2 hlt)]
  rfl

/-- A file that is opened is extended to the bytes of the elements. -/
theorem open_eq_ok (h : size * k.width ≤ maxPosition) (hfile : files[name]? = some bytes)
    (hfit : writable = true ∨ size * k.width ≤ bytes.size) :
    ∃ files', files.open name k size writable = .ok files' ∧
      files.Extended name (size * k.width) files' := by
  rw [open_eq h hfile]
  split
  · next hle =>
    refine ⟨files, rfl, ⟨bytes, hfile, ?_⟩, fun _ _ => rfl⟩
    rw [hfile, Nat.sub_eq_zero_of_le hle, Array.replicate_zero, Array.append_empty]
  · next hlt =>
    rw [if_pos (hfit.resolve_right hlt)]
    refine ⟨_, rfl, ⟨bytes, hfile, Std.HashMap.getElem?_insert_self⟩, fun other hne => ?_⟩
    rw [Std.HashMap.getElem?_insert, if_neg (mt beq_iff_eq.1 (Ne.symm hne))]

/-- Opening succeeds in no other way. -/
theorem extended_of_open (hopen : files.open name k size writable = .ok files') :
    size * k.width ≤ maxPosition ∧ files.Extended name (size * k.width) files' := by
  rcases Nat.lt_or_ge maxPosition (size * k.width) with hbig | h
  · rw [open_eq_error hbig] at hopen
    cases hopen
  cases hfile : files[name]? with
  | none =>
    rw [open_eq_missing h hfile] at hopen
    cases hopen
  | some bytes =>
    by_cases hfit : writable = true ∨ size * k.width ≤ bytes.size
    · obtain ⟨_, hok, hextended⟩ := open_eq_ok h hfile hfit
      cases hok.symm.trans hopen
      exact ⟨h, hextended⟩
    · obtain ⟨hreadOnly, hlt⟩ := not_or.1 hfit
      rw [Bool.not_eq_true] at hreadOnly
      rw [hreadOnly, open_eq_short h hfile (Nat.not_le.1 hlt)] at hopen
      cases hopen

end Files

end Orthotope
