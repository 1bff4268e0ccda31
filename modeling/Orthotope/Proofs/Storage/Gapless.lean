import Orthotope.Proofs.Channel.Keeps
import Orthotope.Proofs.Channel.Missing
import Orthotope.Proofs.Storage.Bits
import Orthotope.Proofs.Storage.Files
import Orthotope.Proofs.Storage.Flat

/-!
# Storage in which no element is missing

Dense storage, packed truth values and mapped files have an element at every position. Their nullable
channel is the raw one with missing elements taken for null, so that no read gives a missing element
(`Dense.gapless` and so on), and the two channels agree with null for a missing element
(`Dense.agrees` and so on).

A bulk write to a mapped file changes the file once on the raw channel and once for each element on the
nullable one. The resulting files have the same bytes under the same names (`Files.Same`).
-/

namespace Orthotope

/-! ## Dense storage -/

namespace Dense

variable {α : Type} [Inhabited α] {shape : List Nat} {null : α}

theorem agrees (shape : List Nat) (null : α) :
    (access shape null).Agrees (Access.EqWhere (Covers · (sizeOf shape))) null := by
  have hraw := plain (α := α) (sizeOf shape)
  refine Access.agrees_of_plain_eq hraw (hraw.orNull null) rfl (fun _ _ => rfl) (fun _ _ _ => rfl) ?_
  intro d p hd hp
  exact (hd.item_replace hp null).trans (if_pos rfl)

theorem gapless (shape : List Nat) (null : α) :
    (access shape null).Gapless (Access.EqWhere (Covers · (sizeOf shape))) := by
  have hraw := plain (α := α) (sizeOf shape)
  exact Access.gapless_of_plain_eq hraw (hraw.orNull null) rfl fun _ _ => rfl

theorem orderly (shape : List Nat) (null : α) :
    (access shape null).Orderly (Access.EqWhere (Covers · (sizeOf shape))) := by
  have hraw := plain (α := α) (sizeOf shape)
  refine Access.orderly_of_plain_eq hraw (hraw.orNull null) rfl ?_
  intro d p q x hd hp _ hne
  exact (hd.item_replace hp (x.getD null)).trans (if_neg hne)

/-- Requests, to a cube of whatever shape, leave a place for every position. -/
theorem keeps (shape : List Nat) (null : α) (size : Nat) :
    (access shape null).Keeps (Covers · size) := by
  have hraw : (channel (α := α) (sizeOf shape)).Keeps (Covers · size) := by
    refine Channel.keeps_ofState (fun p x hd => hd.replace p x) fun {d} p xs hd => ?_
    rw [overwrite_eq]
    induction xs generalizing d p with
    | nil => exact hd
    | cons x xs ih => exact ih (p + 1) (hd.replace p x)
  exact ⟨hraw, hraw.orNull null⟩

end Dense

/-! ## Packed truth values -/

namespace Bits

variable {shape : List Nat}

/-- The marks of a bit set are padded with zeros and are as many as the positions. -/
def Sized (size : Nat) (s : BitSet) : Prop := s.Canonical ∧ s.size = size

theorem Sized.mark {size : Nat} {s : BitSet} (h : Sized size s) (p : Nat) (b : Bool) :
    Sized size (s.mark p b) := ⟨h.1.mark p b, (BitSet.size_mark s p b).trans h.2⟩

theorem plain (size : Nat) :
    (channel size).Plain (Sized size) (fun s p => s.mem p) fun s p b => s.mark p b :=
  Channel.plain_ofState (fun b hs _ => hs.mark _ b)
    (fun _ _ => Channel.map_range_add ..)
    fun _ _ => assignAll_eq ..

theorem agrees (shape : List Nat) :
    (access shape).Agrees (Access.EqWhere (Sized (sizeOf shape))) false := by
  have hraw := plain (sizeOf shape)
  refine Access.agrees_of_plain_eq hraw (hraw.orNull false).stepwise rfl (fun _ _ => rfl)
    (fun _ _ _ => rfl) ?_
  rintro s p ⟨hcanonical, hsize⟩ hp
  exact (hcanonical.mem_mark p false p).trans (if_pos ⟨rfl, hsize ▸ hp⟩)

theorem gapless (shape : List Nat) :
    (access shape).Gapless (Access.EqWhere (Sized (sizeOf shape))) := by
  have hraw := plain (sizeOf shape)
  exact Access.gapless_of_plain_eq hraw (hraw.orNull false).stepwise rfl fun _ _ => rfl

theorem orderly (shape : List Nat) :
    (access shape).Orderly (Access.EqWhere (Sized (sizeOf shape))) := by
  have hraw := plain (sizeOf shape)
  refine Access.orderly_of_plain_eq hraw (hraw.orNull false).stepwise rfl ?_
  rintro s p q b ⟨hcanonical, -⟩ _ _ hne
  exact (hcanonical.mem_mark p (b.getD false) q).trans (if_neg fun h => hne h.1)

/-- Requests, to a cube of whatever shape, leave the number of marks as it is. -/
theorem keeps (shape : List Nat) (size : Nat) : (access shape).Keeps (Sized size) := by
  have hraw : (channel (sizeOf shape)).Keeps (Sized size) := by
    refine Channel.keeps_ofState (fun p b hs => hs.mark p b) fun {s} p bs hs => ?_
    rw [assignAll_eq]
    induction bs generalizing s p with
    | nil => exact hs
    | cons b bs ih => exact ih (p + 1) (hs.mark p b)
  exact ⟨hraw, (hraw.orNull false).stepwise⟩

end Bits

/-! ## Mapped files -/

/-- The same files with the same bytes. -/
def Files.Same (files files' : Files) : Prop := ∀ name : String, files[name]? = files'[name]?

/-- No file is gone, and none is shorter. -/
def Files.Grown (files files' : Files) : Prop :=
  ∀ (name : String) (bytes : Array UInt8), files[name]? = some bytes →
    ∃ bytes', files'[name]? = some bytes' ∧ bytes.size ≤ bytes'.size

theorem Files.Grown.refl (files : Files) : files.Grown files := fun _ bytes h => ⟨bytes, h, Nat.le_refl _⟩

namespace Mapping

variable {k : Kind} {m : Mapping} {size : Nat} {files files' : Files}

/-- The file is there and has the bytes of `size` elements. -/
def Backed (m : Mapping) (k : Kind) (size : Nat) (files : Files) : Prop :=
  ∃ bytes, files[m.file]? = some bytes ∧ size * k.width ≤ bytes.size

/-- The files after elements were overwritten. -/
def edit (m : Mapping) (k : Kind) (files : Files) (p : Nat) (xs : List k.Elem) : Files :=
  files.modify m.file fun bytes => overwrite k bytes p xs

theorem getElem?_edit (p : Nat) (xs : List k.Elem) (name : String) :
    (m.edit k files p xs)[name]? =
      if m.file = name then files[name]?.map (overwrite k · p xs) else files[name]? := by
  rw [edit, Std.HashMap.getElem?_modify]
  simp only [beq_iff_eq]
  split
  · next heq => rw [heq]
  · rfl

theorem getElem?_edit_self {bytes : Array UInt8} (hfile : files[m.file]? = some bytes) (p : Nat)
    (xs : List k.Elem) : (m.edit k files p xs)[m.file]? = some (overwrite k bytes p xs) := by
  rw [getElem?_edit, if_pos rfl, hfile]
  rfl

theorem Backed.edit (h : m.Backed k size files) (p : Nat) (xs : List k.Elem) :
    m.Backed k size (m.edit k files p xs) := by
  obtain ⟨bytes, hfile, hsize⟩ := h
  refine ⟨overwrite k bytes p xs, getElem?_edit_self hfile p xs, ?_⟩
  rw [size_overwrite_items]
  exact hsize

theorem Backed.same (h : m.Backed k size files) (hsame : files.Same files') :
    m.Backed k size files' := by
  obtain ⟨bytes, hfile, hsize⟩ := h
  exact ⟨bytes, (hsame m.file) ▸ hfile, hsize⟩

theorem edit_same (hsame : files.Same files') (p : Nat) (xs : List k.Elem) :
    (m.edit k files p xs).Same (m.edit k files' p xs) := by
  intro name
  rw [getElem?_edit, getElem?_edit, hsame name]

theorem contents_same (hsame : files.Same files') (name : String) :
    files.contents name = files'.contents name := by
  rw [Files.contents, Files.contents, Std.HashMap.getD_eq_getD_getElem?,
    Std.HashMap.getD_eq_getD_getElem?, hsame name]

/-- Changing the file once for each element makes the same files as changing it once for all. -/
theorem editEach_same (files : Files) (p : Nat) (xs : List k.Elem) :
    (replaceEach (fun files p x => m.edit k files p [x]) files p xs).Same (m.edit k files p xs) := by
  induction xs generalizing files p with
  | nil =>
    intro name
    rw [getElem?_edit]
    split
    · exact (congrFun Option.map_id files[name]?).symm
    · rfl
  | cons x xs ih =>
    intro name
    have hsplit : ∀ bytes : Array UInt8, overwrite k bytes p (x :: xs) =
        overwrite k (overwrite k bytes p [x]) (p + 1) xs := fun bytes => by
      rw [overwrite_eq bytes p (x :: xs), replaceEach, ← overwrite_eq]
    rw [replaceEach, ih, getElem?_edit, getElem?_edit, getElem?_edit]
    split
    · rw [Option.map_map]
      exact congrArg (Option.map · files[name]?) (funext fun bytes => (hsplit bytes).symm)
    · rfl

/-- The elements as a channel that changes the file once for each element. -/
def single (m : Mapping) (k : Kind) (size : Nat) : Channel Files k.Elem :=
  Channel.ofState size (fun files p => item k (files.contents m.file) p)
    (fun files => items k (files.contents m.file))
    (fun files p x => m.edit k files p [x]) (replaceEach fun files p x => m.edit k files p [x])

theorem plain_single (m : Mapping) (k : Kind) (size : Nat) :
    (m.single k size).Plain (m.Backed k size) (fun files p => item k (files.contents m.file) p)
      fun files p x => m.edit k files p [x] :=
  Channel.plain_ofState (fun x hs _ => hs.edit _ [x]) (fun _ _ => items_eq ..) fun _ _ => rfl

/-- Access to the elements in which also the raw channel changes the file once for each element. -/
def accessSingle (m : Mapping) (k : Kind) (shape : List Nat) : Access Files k.Elem where
  raw := m.single k (sizeOf shape)
  nullable := ((m.single k (sizeOf shape)).orNull k.null).stepwise
  flush := pure ()

/-- If the file may be written, only bulk writes on the raw channel differ. -/
theorem access_eq (h : m.writable = true) (shape : List Nat) : m.access k shape =
    { m.accessSingle k shape with
      raw := { m.single k (sizeOf shape) with
        write := fun p xs => writeWithin (sizeOf shape) p xs.length <|
          Act.ofEffect (Effect.update (m.edit k · p xs)) } } := by
  have hchannel : m.channel k (sizeOf shape) =
      { m.single k (sizeOf shape) with
        write := fun p xs => writeWithin (sizeOf shape) p xs.length <|
          Act.ofEffect (Effect.update (m.edit k · p xs)) } := by
    simp only [channel, change, h, if_true]
    rfl
  unfold access accessSingle
  rw [hchannel]
  exact congrArg (Access.mk _ · _) (Channel.stepwise_congr rfl rfl rfl)

/-- How files are compared: they are the same, and have the bytes of the elements. -/
def Alike (m : Mapping) (k : Kind) (size : Nat) (files files' : Files) : Prop :=
  files.Same files' ∧ m.Backed k size files

theorem Alike.backed (h : m.Alike k size files files') :
    m.Backed k size files ∧ m.Backed k size files' := ⟨h.2, h.2.same h.1⟩

theorem Alike.item_eq (h : m.Alike k size files files') (p : Nat) :
    item k (files.contents m.file) p = item k (files'.contents m.file) p := by
  rw [contents_same h.1]

theorem Alike.edit (h : m.Alike k size files files') (p : Nat) (xs : List k.Elem) :
    m.Alike k size (m.edit k files p xs) (m.edit k files' p xs) := ⟨edit_same h.1 p xs, h.2.edit p xs⟩

/-- What is found after one element was overwritten. -/
theorem Backed.item_edit (h : m.Backed k size files) {p : Nat} (hp : p < size) (x : k.Elem) (q : Nat) :
    item k ((m.edit k files p [x]).contents m.file) q =
      if q = p then x else item k (files.contents m.file) q := by
  obtain ⟨bytes, hfile, hsize⟩ := h
  rw [Files.contents_eq hfile, Files.contents_eq (getElem?_edit_self hfile p [x]),
    item_overwrite hp hsize]

theorem agrees_single (m : Mapping) (k : Kind) (shape : List Nat) :
    (m.accessSingle k shape).Agrees (m.Alike k (sizeOf shape)) k.null := by
  have hplain := m.plain_single k (sizeOf shape)
  refine Access.agrees_of_plain hplain (hplain.orNull k.null).stepwise rfl Alike.backed
    (fun p hst => hst.item_eq p) (fun x hst _ => hst.edit _ [x]) ?_
  intro files p hbacked hp
  exact (hbacked.item_edit hp k.null p).trans (if_pos rfl)

theorem agrees (h : m.writable = true) (shape : List Nat) :
    (m.access k shape).Agrees (m.Alike k (sizeOf shape)) k.null := by
  have hsingle := m.agrees_single k shape
  rw [access_eq h]
  refine ⟨⟨rfl, hsingle.reads.get, hsingle.reads.read⟩,
    ⟨rfl, hsingle.writes.set, fun p xs => ?_⟩, hsingle.erase⟩
  intro files files' hfiles
  obtain ⟨hvalue, hsame, hbacked⟩ := hsingle.writes.write p xs files files' hfiles
  have hone : (m.accessSingle k shape).raw.write p xs = writeWithin (sizeOf shape) p xs.length
    (Act.ofEffect (Effect.update (replaceEach (fun files p x => m.edit k files p [x]) · p xs))) := rfl
  unfold Act.outcome at hvalue hsame ⊢
  rw [hone, Channel.run_writeWithin] at hvalue hsame
  rw [Channel.run_writeWithin]
  split at hvalue
  · next hle =>
    rw [if_pos hle] at hsame ⊢
    refine ⟨hvalue, fun name => ?_, hbacked⟩
    exact (hsame name).trans (editEach_same files' p xs name)
  · next hle =>
    rw [if_neg hle] at hsame ⊢
    exact ⟨hvalue, hsame, hbacked⟩

theorem gapless (h : m.writable = true) (shape : List Nat) :
    (m.access k shape).Gapless (m.Alike k (sizeOf shape)) := by
  have hplain := m.plain_single k (sizeOf shape)
  have hsingle : (m.accessSingle k shape).Gapless (m.Alike k (sizeOf shape)) :=
    Access.gapless_of_plain hplain (hplain.orNull k.null).stepwise rfl Alike.backed
      fun p hst => congrArg some (hst.item_eq p)
  rw [access_eq h]
  exact ⟨rfl, hsingle.get, hsingle.read⟩

theorem orderly (h : m.writable = true) (shape : List Nat) :
    (m.access k shape).Orderly (m.Alike k (sizeOf shape)) := by
  have hplain := m.plain_single k (sizeOf shape)
  have hsingle : (m.accessSingle k shape).Orderly (m.Alike k (sizeOf shape)) := by
    refine Access.orderly_of_plain hplain (hplain.orNull k.null).stepwise rfl Alike.backed
      (fun p hst => congrArg some (hst.item_eq p)) (fun x hst _ => hst.edit _ [x.getD k.null]) ?_
    intro files p q x hbacked hp _ hne
    exact (hbacked.item_edit hp (x.getD k.null) q).trans (if_neg hne)
  rw [access_eq h]
  exact ⟨hsingle.stepwise, hsingle.frame⟩

theorem run_change (m : Mapping) (f : Array UInt8 → Array UInt8) (files : Files) :
    (m.change f).run.run files =
      if m.writable then ⟨.ok (), [], files.modify m.file f⟩ else ⟨.error .readOnly, [], files⟩ := by
  unfold change
  split <;> rfl

theorem Backed.grown (h : m.Backed k size files) (hgrown : files.Grown files') :
    m.Backed k size files' := by
  obtain ⟨bytes, hfile, hsize⟩ := h
  obtain ⟨bytes', hfile', hle⟩ := hgrown m.file bytes hfile
  exact ⟨bytes', hfile', Nat.le_trans hsize hle⟩

/-- Requests, to a cube of whatever kind and shape, keep what every edit of the file keeps. If the file may
only be read, they keep everything. -/
theorem keeps_of_edit (m : Mapping) (k : Kind) (shape : List Nat) {I : Files → Prop}
    (hedit : m.writable = true → ∀ {files} p (xs : List k.Elem), I files → I (m.edit k files p xs)) :
    (m.access k shape).Keeps I := by
  have hchange : ∀ {files : Files} (p : Nat) (xs : List k.Elem), I files →
      I ((m.change fun bytes => overwrite k bytes p xs).run.run files).state := by
    intro files p xs hs
    rw [run_change]
    split
    · next hwritable => exact hedit hwritable p xs hs
    · exact hs
  have hraw : (m.channel k (sizeOf shape)).Keeps I := by
    refine Channel.keeps_of_calls (fun p files hs => ?_) (fun p x files hs => ?_)
      (fun p n files hs => ?_) fun p xs files hs => ?_
    · simp only [channel, Channel.run_checked]
      split <;> exact hs
    · simp only [channel, Channel.run_checked]
      split
      · exact hchange p [x] hs
      · exact hs
    · simp only [channel, Channel.run_readWithin]
      split <;> exact hs
    · simp only [channel, Channel.run_writeWithin]
      split
      · exact hchange p xs hs
      · exact hs
  exact ⟨hraw, (hraw.orNull k.null).stepwise⟩

/-- Requests, to a cube of whatever kind and shape over whatever file, make no file shorter. -/
theorem keeps (m : Mapping) (k : Kind) (shape : List Nat) (start : Files) :
    (m.access k shape).Keeps start.Grown := by
  refine m.keeps_of_edit k shape fun _ {files} p xs hgrown name bytes hbytes => ?_
  obtain ⟨bytes', hbytes', hle⟩ := hgrown name bytes hbytes
  rw [getElem?_edit, hbytes']
  split
  · exact ⟨_, rfl, Nat.le_trans hle (Nat.le_of_eq (size_overwrite_items p xs).symm)⟩
  · exact ⟨bytes', rfl, hle⟩

end Mapping

end Orthotope
