import Orthotope.Proofs.Channel.Faithful
import Orthotope.Storage.Files

/-!
# Writable mappings are faithful

The bytes of an element give the element back (`Kind.ofBytes_toBytes`), and the bytes of different
elements do not overlap in a file (`Mapping.item_overwrite`). The elements of one slice of the bytes,
cut into pieces, are those read one by one (`Mapping.items_eq`). A mapping of a file that is there, is
long enough and may be written is therefore faithful (`Mapping.faithful`). The bytes behind the
elements may be anything.
-/

namespace Orthotope

namespace Kind

@[simp] theorem length_toBytes (k : Kind) (x : k.Elem) : (k.toBytes x).length = k.width :=
  length_littleEndian ..

/-- The bytes of an element give the element back. -/
theorem ofBytes_toBytes (k : Kind) (x : k.Elem) : k.ofBytes (k.toBytes x) = x := by
  rw [ofBytes, toBytes, ofLittleEndian_littleEndian]
  have hwide : ∀ w : BitVec 64, BitVec.ofNat 64 (w.toNat % 256 ^ 8) = w := fun w => by
    have hlt : w.toNat < 256 ^ 8 := by
      have := w.isLt
      omega
    rw [Nat.mod_eq_of_lt hlt, BitVec.ofNat_toNat, BitVec.setWidth_eq]
  have hnarrow : ∀ w : BitVec 64,
      (BitVec.ofNat 64 (w.toNat % 256 ^ 4)).setWidth 32 = w.setWidth 32 := fun w => by
    apply BitVec.eq_of_toNat_eq
    simp only [BitVec.toNat_setWidth, BitVec.toNat_ofNat]
    omega
  have hback := ofBits_toBits k x
  cases k with
  | f64 | i64 =>
    rw [width, hwide]
    exact hback
  | f32 =>
    show (⟨_⟩ : Binary .single) = x
    rw [width, hnarrow]
    exact hback
  | i32 =>
    show Int32.ofBitVec _ = x
    rw [width, hnarrow]
    exact hback
  | bool => cases x <;> decide

end Kind

/-! ## Overwriting -/

section
variable {α : Type}

@[simp] theorem size_overwrite (xs : Array α) (i : Nat) (ys : List α) :
    (overwrite xs i ys).size = xs.size := by
  induction ys generalizing xs i with
  | nil => rfl
  | cons y ys ih => rw [overwrite, ih, Array.size_setIfInBounds]

theorem overwrite_append (xs : Array α) (i : Nat) (ys zs : List α) :
    overwrite xs i (ys ++ zs) = overwrite (overwrite xs i ys) (i + ys.length) zs := by
  induction ys generalizing xs i with
  | nil => rfl
  | cons y ys ih =>
    rw [List.cons_append, overwrite, ih, overwrite, List.length_cons, Nat.add_assoc, Nat.add_comm 1]

/-- Overwriting in range replaces the entries from a place on and no others. -/
theorem getElem?_overwrite {xs : Array α} {i : Nat} {ys : List α} (h : i + ys.length ≤ xs.size)
    (j : Nat) : (overwrite xs i ys)[j]? =
      if i ≤ j ∧ j < i + ys.length then ys[j - i]? else xs[j]? := by
  induction ys generalizing xs i with
  | nil =>
    rw [List.length_nil, Nat.add_zero, overwrite, if_neg fun hj => Nat.not_lt.2 hj.1 hj.2]
  | cons y ys ih =>
    rw [List.length_cons] at h ⊢
    have hfit : i + 1 + ys.length ≤ (xs.setIfInBounds i y).size := by
      rw [Array.size_setIfInBounds]
      omega
    rw [overwrite, ih hfit, Array.getElem?_setIfInBounds]
    by_cases hj : j = i
    · subst hj
      rw [if_neg fun hj => Nat.not_succ_le_self j hj.1, if_pos rfl, if_pos (by omega),
        if_pos ⟨Nat.le_refl j, by omega⟩, Nat.sub_self, List.getElem?_cons_zero]
    · rw [if_neg (Ne.symm hj)]
      by_cases hin : i ≤ j ∧ j < i + (ys.length + 1)
      · rw [if_pos hin, if_pos (by omega), show j - i = j - (i + 1) + 1 by omega,
          List.getElem?_cons_succ]
      · rw [if_neg hin, if_neg (by omega)]

end

theorem Files.contents_eq {files : Files} {name : String} {bytes : Array UInt8}
    (h : files[name]? = some bytes) : files.contents name = bytes := by
  rw [contents, Std.HashMap.getD_eq_getD_getElem?, h]
  rfl

namespace Mapping

variable {k : Kind} {m : Mapping} {bytes : Array UInt8} {files : Files} {f : Nat → k.Elem}
  {size p q : Nat}

/-! ## Elements among the bytes -/

/-- What was written is found again. -/
theorem bytesAt_overwrite {i : Nat} {ys : List UInt8} (h : i + ys.length ≤ bytes.size) :
    bytesAt (Orthotope.overwrite bytes i ys) i ys.length = ys := by
  apply List.ext_getElem?
  intro j
  rw [bytesAt, Array.getElem?_toList, Array.getElem?_extract, getElem?_overwrite h, size_overwrite,
    Nat.min_eq_left h, Nat.add_sub_cancel_left, Nat.add_sub_cancel_left]
  by_cases hj : j < ys.length
  · rw [if_pos hj, if_pos (by omega)]
  · rw [if_neg hj, List.getElem?_eq_none (Nat.le_of_not_lt hj)]

/-- Bytes apart from what was written are as before. -/
theorem bytesAt_overwrite_of_apart {i j count : Nat} {ys : List UInt8}
    (h : i + ys.length ≤ bytes.size) (hapart : i + ys.length ≤ j ∨ j + count ≤ i) :
    bytesAt (Orthotope.overwrite bytes i ys) j count = bytesAt bytes j count := by
  apply List.ext_getElem?
  intro l
  rw [bytesAt, bytesAt, Array.getElem?_toList, Array.getElem?_toList, Array.getElem?_extract,
    Array.getElem?_extract, getElem?_overwrite h, size_overwrite]
  split
  · rw [if_neg (by omega)]
  · rfl

/-- The bytes of an element lie within those of all elements. -/
theorem place_le (hp : p < size) (hsize : size * k.width ≤ bytes.size) :
    p * k.width + k.width ≤ bytes.size := by
  rw [← Nat.succ_mul]
  exact Nat.le_trans (Nat.mul_le_mul_right _ hp) hsize

/-- A replaced element is found at its position, and all others stay. -/
theorem item_overwrite (hp : p < size) (hsize : size * k.width ≤ bytes.size) (x : k.Elem) :
    item k (overwrite k bytes p [x]) q = if q = p then x else item k bytes q := by
  have hlen : ([x].flatMap k.toBytes).length = k.width := by simp
  have hfit : p * k.width + ([x].flatMap k.toBytes).length ≤ bytes.size := by
    rw [hlen]
    exact place_le hp hsize
  unfold item overwrite
  split
  · next heq =>
    subst heq
    have hback := bytesAt_overwrite hfit
    rw [hlen] at hback
    rw [hback, List.flatMap_singleton, Kind.ofBytes_toBytes]
  · next hne =>
    rw [bytesAt_overwrite_of_apart hfit]
    rw [hlen, ← Nat.succ_mul, ← Nat.succ_mul]
    rcases Nat.lt_or_gt_of_ne hne with hlt | hlt
    · exact .inr (Nat.mul_le_mul_right _ hlt)
    · exact .inl (Nat.mul_le_mul_right _ hlt)

/-- A stretch of bytes begins with each shorter one from the same place. -/
theorem take_bytesAt (bytes : Array UInt8) (i : Nat) {a b : Nat} (h : a ≤ b) :
    (bytesAt bytes i b).take a = bytesAt bytes i a := by
  simp only [bytesAt, Array.toList_extract, List.extract_eq_take_drop, Nat.add_sub_cancel_left,
    List.take_take, Nat.min_eq_left h]

/-- Without its first bytes, a stretch begins behind them. -/
theorem drop_bytesAt (bytes : Array UInt8) (i a b : Nat) :
    (bytesAt bytes i (a + b)).drop a = bytesAt bytes (i + a) b := by
  simp only [bytesAt, Array.toList_extract, List.extract_eq_take_drop, Nat.add_sub_cancel_left,
    List.drop_take, List.drop_drop]

/-- Dividing the bytes of many elements gives the elements, each as it is found by itself. -/
theorem items_eq (k : Kind) (bytes : Array UInt8) (p n : Nat) :
    items k bytes p n = (List.range' p n).map (item k bytes) := by
  rw [items]
  induction n generalizing p with
  | zero => rfl
  | succ n ih =>
    rw [chunks, Nat.succ_mul, Nat.add_comm (n * k.width), take_bytesAt _ _ (Nat.le_add_right ..),
      drop_bytesAt, ← Nat.succ_mul, List.map_cons, ih, List.range'_succ, List.map_cons, item]

@[simp] theorem size_overwrite_items (p : Nat) (xs : List k.Elem) :
    (overwrite k bytes p xs).size = bytes.size := size_overwrite ..

/-- A bulk write replaces one element after the other. -/
theorem overwrite_eq (bytes : Array UInt8) (p : Nat) (xs : List k.Elem) :
    overwrite k bytes p xs = replaceEach (fun bytes p x => overwrite k bytes p [x]) bytes p xs := by
  induction xs generalizing bytes p with
  | nil => rfl
  | cons x xs ih =>
    rw [replaceEach, ← ih, overwrite, overwrite, overwrite, List.flatMap_cons, overwrite_append,
      List.flatMap_singleton, Kind.length_toBytes, Nat.succ_mul]

/-! ## The channel -/

/-- A file of enough bytes holds the elements at its positions. -/
def HoldsBytes (size : Nat) (bytes : Array UInt8) (f : Nat → k.Elem) : Prop :=
  size * k.width ≤ bytes.size ∧ ∀ p < size, item k bytes p = f p

theorem HoldsBytes.replace (h : HoldsBytes size bytes f) (hp : p < size) (x : k.Elem) :
    HoldsBytes size (overwrite k bytes p [x]) (Function.update f p x) := by
  refine ⟨by rw [size_overwrite_items]; exact h.1, fun q hq => ?_⟩
  rw [item_overwrite hp h.1, Function.update_apply, h.2 q hq]

/-- A mapping that may be written holds what its file holds. -/
structure Holds (m : Mapping) (size : Nat) (files : Files) (f : Nat → k.Elem) : Prop where
  writable : m.writable = true
  bytes : ∃ bytes, files[m.file]? = some bytes ∧ HoldsBytes size bytes f

/-- Changing the bytes of the file does not fail, and changes what is held as it does for the bytes. -/
theorem Holds.change {g : Nat → k.Elem} {edit : Array UInt8 → Array UInt8}
    (h : m.Holds size files f)
    (hedit : ∀ bytes, HoldsBytes size bytes f → HoldsBytes size (edit bytes) g) :
    ∃ files', (m.change edit).outcome files = (.ok (), files') ∧ m.Holds size files' g := by
  obtain ⟨hwritable, bytes, hfile, hbytes⟩ := h
  refine ⟨files.modify m.file edit, ?_, hwritable, edit bytes, ?_, hedit bytes hbytes⟩
  · rw [Mapping.change, if_pos hwritable]
    rfl
  · rw [Std.HashMap.getElem?_modify_self, hfile]
    rfl

theorem Holds.serves (h : m.Holds size files f) :
    (m.channel k size).Serves (m.Holds size) files f := by
  obtain ⟨bytes, hfile, hsize, hitem⟩ := h.bytes
  have hcontents := Files.contents_eq hfile
  refine ⟨fun {p} hp => ?get, fun {p} x hp => ?set, fun {p n} hle => ?read,
    fun {p xs} hle => ?write, Channel.lt_of_checked, Channel.le_of_writeWithin⟩
  case get =>
    refine (congrFun (Channel.outcome_checked hp _) files).trans ?_
    rw [Act.outcome_ofEffect, Effect.run_look, hcontents, hitem p hp]
  case set =>
    obtain ⟨files', hrun, hheld⟩ := h.change fun bytes hbytes => hbytes.replace hp x
    exact ⟨files', (congrFun (Channel.outcome_checked hp _) files).trans hrun, hheld⟩
  case read =>
    rw [Channel.outcome_readSpan_look (g := fun files => items k (files.contents m.file) p n) rfl hle,
      hcontents, items_eq, Channel.map_range'_congr hitem hle]
  case write =>
    have hedit : ∀ bytes, HoldsBytes size bytes f →
        HoldsBytes size (overwrite k bytes p xs) (scatter (p + ·) f xs) := fun bytes hbytes => by
      rw [overwrite_eq]
      exact replaceEach_holds (fun x hs hp => hs.replace hp x) hbytes hle
    obtain ⟨files', hrun, hheld⟩ := h.change hedit
    exact ⟨files', (congrFun (Channel.outcome_writeWithin hle _) files).trans hrun, hheld⟩

theorem faithful (m : Mapping) (k : Kind) (size : Nat) :
    (m.channel k size).Faithful (m.Holds size) where
  serves h := h.serves
  congr h hfg := by
    obtain ⟨hwritable, bytes, hfile, hsize, hitem⟩ := h
    exact ⟨hwritable, bytes, hfile, hsize, fun p hp => (hitem p hp).trans (hfg p hp)⟩

/-! ## New mappings -/

/-- A file that is long enough holds some elements, whatever its bytes are. -/
theorem holds_of_le {name : String} {bytes : Array UInt8} (hfile : files[name]? = some bytes)
    (hsize : size * k.width ≤ bytes.size) :
    (⟨name, true⟩ : Mapping).Holds size files (item k bytes) :=
  ⟨rfl, bytes, hfile, hsize, fun _ _ => rfl⟩

end Mapping

namespace Files

variable {k : Kind} {name : String} {files files' : Files} {size n : Nat}

/-- A file that was made for a cube holds its elements. -/
theorem holds_create (h : files.create name k size = .ok (n, files')) :
    ∃ f : Nat → k.Elem, (⟨name, true⟩ : Mapping).Holds size files' f := by
  unfold create byteCount at h
  split at h
  · cases h
    exact ⟨_, Mapping.holds_of_le Std.HashMap.getElem?_insert_self
      (Nat.le_of_eq Array.size_replicate.symm)⟩
  · cases h

/-- A file that was opened for writing holds the elements of a cube. -/
theorem holds_open (h : files.open name k size true = .ok files') :
    ∃ f : Nat → k.Elem, (⟨name, true⟩ : Mapping).Holds size files' f := by
  unfold «open» byteCount at h
  split at h
  · cases hfile : files[name]? with
    | none =>
      rw [hfile] at h
      cases h
    | some bytes =>
      rw [hfile] at h
      have h : (if size * k.width ≤ bytes.size then Except.ok files
        else .ok (files.insert name (bytes ++ Array.replicate (size * k.width - bytes.size) 0))) =
          Except.ok files' := h
      split at h
      · next hle =>
        cases h
        exact ⟨_, Mapping.holds_of_le hfile hle⟩
      · cases h
        refine ⟨_, Mapping.holds_of_le Std.HashMap.getElem?_insert_self ?_⟩
        rw [Array.size_append, Array.size_replicate]
        omega
  · cases h

end Files

end Orthotope
