import Orthotope.Proofs.Channel.Faithful
import Orthotope.Proofs.Channel.Requests

/-!
# Plain channels

Most storage is described by two functions: `item` gives the element that a state has at a position, and
`replace` the state after an element was replaced. A channel is `Channel.Plain` if it checks each request
against its size and then does what these functions say: a bulk read gives the single elements in order,
and a bulk write replaces one after the other. The states are those of an invariant that replacing
elements keeps.

What a plain channel answers is `Channel.Request.onState` (`Channel.Plain.answer`), and what it shows are
the elements that `item` gives (`Channel.Plain.shows`). A channel that moves elements one at a time
(`Channel.Plain.stepwise`) or that takes missing elements for null (`Channel.Plain.orNull`) is plain if
the channel beneath is. If the states stand for lists, and `item`
and `replace` look up and set their entries, the channel answers as the list does
(`Channel.Plain.answer_onList`).
-/

namespace Orthotope

variable {σ α : Type}

namespace Channel

/-- What comes back, and the state that is left, if elements are found by `item` and replaced by
`replace`. -/
def Request.onState (size : Nat) (item : σ → Nat → α) (replace : σ → Nat → α → σ) (s : σ) :
    Request α → Answer α × σ
  | .get p =>
    if p < size then (.item (.ok (item s p)), s) else (.item (.error (.position p size)), s)
  | .set p x =>
    if p < size then (.done (.ok ()), replace s p x)
    else (.done (.error (.position p size)), s)
  | .read p buffer =>
    if p + buffer.length ≤ size then
      (.buffer (.ok ()) ((List.range' p buffer.length).map (item s)), s)
    else (.buffer (.error (outOfRange size p buffer.length)) buffer, s)
  | .write p xs =>
    if p + xs.length ≤ size then (.done (.ok ()), replaceEach replace s p xs)
    else (.done (.error (outOfRange size p xs.length)), s)

/-- At the states of an invariant, a request in range is answered by `item` and `replace`, and one out
of range is refused. -/
structure Plain (c : Channel σ α) (inv : σ → Prop) (item : σ → Nat → α)
    (replace : σ → Nat → α → σ) : Prop where
  keep : ∀ {s p} x, inv s → p < c.size → inv (replace s p x)
  get : ∀ {s p}, inv s → p < c.size → (c.get p).run.run s = ⟨.ok (item s p), [], s⟩
  set : ∀ {s p} x, inv s → p < c.size → (c.set p x).run.run s = ⟨.ok (), [], replace s p x⟩
  read : ∀ {s p n}, inv s → p + n ≤ c.size →
    (c.read p n).run s = ⟨.done ((List.range' p n).map (item s)), [], s⟩
  write : ∀ {s p xs}, inv s → p + xs.length ≤ c.size →
    (c.write p xs).run.run s = ⟨.ok (), [], replaceEach replace s p xs⟩
  get_error : ∀ {s p}, ¬ p < c.size → (c.get p).run.run s = ⟨.error (.position p c.size), [], s⟩
  set_error : ∀ {s p x}, ¬ p < c.size →
    (c.set p x).run.run s = ⟨.error (.position p c.size), [], s⟩
  read_error : ∀ {s p n}, ¬ p + n ≤ c.size →
    (c.read p n).run s = ⟨.failed (outOfRange c.size p n), [], s⟩
  write_error : ∀ {s p xs}, ¬ p + xs.length ≤ c.size →
    (c.write p xs).run.run s = ⟨.error (outOfRange c.size p xs.length), [], s⟩

variable {c : Channel σ α} {inv : σ → Prop} {item : σ → Nat → α} {replace : σ → Nat → α → σ}

namespace Plain

theorem keepEach (h : c.Plain inv item replace) {s : σ} {p : Nat} {xs : List α} (hs : inv s)
    (hle : p + xs.length ≤ c.size) : inv (replaceEach replace s p xs) := by
  induction xs generalizing s p with
  | nil => exact hs
  | cons x xs ih =>
    rw [List.length_cons] at hle
    exact ih (h.keep x hs (by omega)) (by omega)

/-- A plain channel answers by its two functions, and keeps the invariant. -/
theorem answer (h : c.Plain inv item replace) {s : σ} (hs : inv s) (r : Request α) :
    (c.answer r).run s =
        ⟨(r.onState c.size item replace s).1, [], (r.onState c.size item replace s).2⟩ ∧
      inv (r.onState c.size item replace s).2 := by
  cases r with
  | get p =>
    simp only [Channel.answer, Request.onState]
    split
    · next hp =>
      refine ⟨?_, hs⟩
      rw [Effect.run_map, h.get hs hp]
    · next hp =>
      refine ⟨?_, hs⟩
      rw [Effect.run_map, h.get_error hp]
  | set p x =>
    simp only [Channel.answer, Request.onState]
    split
    · next hp =>
      refine ⟨?_, h.keep x hs hp⟩
      rw [Effect.run_map, h.set x hs hp]
    · next hp =>
      refine ⟨?_, hs⟩
      rw [Effect.run_map, h.set_error hp]
  | read p buffer =>
    simp only [Channel.answer, Request.onState]
    split
    · next hle =>
      refine ⟨?_, hs⟩
      rw [Effect.run_map, h.read hs hle]
      simp [Transfer.done, Transfer.into]
    · next hle =>
      refine ⟨?_, hs⟩
      rw [Effect.run_map, h.read_error hle]
      rfl
  | write p xs =>
    simp only [Channel.answer, Request.onState]
    split
    · next hle =>
      refine ⟨?_, h.keepEach hs hle⟩
      rw [Effect.run_map, h.write hs hle]
    · next hle =>
      refine ⟨?_, hs⟩
      rw [Effect.run_map, h.write_error hle]

/-- A plain channel shows the elements of its state. -/
theorem shows (h : c.Plain inv item replace) {s : σ} (hs : inv s) : c.Shows s (item s) where
  get hp := by rw [Act.outcome, h.get hs hp]
  read {p n} hle := by
    rw [readSpan_eq]
    show Transfer.whole ((c.read p n).run s).value = _
    rw [h.read hs hle]
    rfl

end Plain

/-! ## Ways to be plain -/

theorem run_readWithin (size p n : Nat) (body : Effect σ (Transfer α)) (s : σ) :
    (readWithin size p n body).run s =
      if p + n ≤ size then body.run s else ⟨.failed (outOfRange size p n), [], s⟩ := by
  rcases Nat.lt_or_ge size (p + n) with h | h
  · rw [readWithin, checkRange, if_neg (Nat.not_le.2 h), if_neg (Nat.not_le.2 h)]
    rfl
  · rw [readWithin, checkRange, if_pos h, if_pos h]

theorem run_writeWithin (size p n : Nat) (body : Act σ Unit) (s : σ) :
    (writeWithin size p n body).run.run s =
      if p + n ≤ size then body.run.run s else ⟨.error (outOfRange size p n), [], s⟩ := by
  rcases Nat.lt_or_ge size (p + n) with h | h
  · rw [writeWithin, checkRange, if_neg (Nat.not_le.2 h), if_neg (Nat.not_le.2 h)]
    rfl
  · rw [writeWithin, checkRange, if_pos h, if_pos h]
    rfl

theorem run_checked {β : Type} (size p : Nat) (body : Act σ β) (s : σ) :
    (do
      Act.ofExcept (checkPos size p)
      body).run.run s =
      if p < size then body.run.run s else ⟨.error (.position p size), [], s⟩ := by
  rcases Nat.lt_or_ge p size with h | h
  · rw [checkPos, if_pos h, if_pos h]
    rfl
  · rw [checkPos, if_neg (Nat.not_lt.2 h), if_neg (Nat.not_lt.2 h)]
    rfl

/-- Storage that only has to look at its state and to change it. -/
def ofState (size : Nat) (item : σ → Nat → α) (items : σ → Nat → Nat → List α)
    (replace : σ → Nat → α → σ) (overwrite : σ → Nat → List α → σ) : Channel σ α where
  size := size
  get p := do
    Act.ofExcept (checkPos size p)
    Act.ofEffect (Effect.look (item · p))
  set p x := do
    Act.ofExcept (checkPos size p)
    Act.ofEffect (Effect.update (replace · p x))
  read p n := readWithin size p n (Effect.look fun s => .done (items s p n))
  write p xs := writeWithin size p xs.length (Act.ofEffect (Effect.update (overwrite · p xs)))

/-- Storage is plain if its bulk transfers come to the same as its single ones. -/
theorem plain_ofState {size : Nat} {items : σ → Nat → Nat → List α}
    {overwrite : σ → Nat → List α → σ}
    (hkeep : ∀ {s p} x, inv s → p < size → inv (replace s p x))
    (hitems : ∀ {s p n}, inv s → p + n ≤ size → items s p n = (List.range' p n).map (item s))
    (hoverwrite : ∀ {s p xs}, inv s → p + xs.length ≤ size →
      overwrite s p xs = replaceEach replace s p xs) :
    (ofState size item items replace overwrite).Plain inv item replace where
  keep := hkeep
  get {s p} _ hp := (run_checked size p _ s).trans (if_pos hp)
  set {s p} x _ hp := (run_checked size p _ s).trans (if_pos hp)
  read {s p n} hs hle := by
    rw [← hitems hs hle]
    exact (run_readWithin size p n _ s).trans (if_pos hle)
  write {s p xs} hs hle := by
    rw [← hoverwrite hs hle]
    exact (run_writeWithin size p xs.length _ s).trans (if_pos hle)
  get_error {s p} hp := (run_checked size p _ s).trans (if_neg hp)
  set_error {s p x} hp := (run_checked size p _ s).trans (if_neg hp)
  read_error {s p n} hle := (run_readWithin size p n _ s).trans (if_neg hle)
  write_error {s p xs} hle := (run_writeWithin size p xs.length _ s).trans (if_neg hle)

/-- Replacing elements that are changed first. -/
theorem replaceEach_map {β : Type} (kept : β → α) (s : σ) (p : Nat) (xs : List β) :
    replaceEach replace s p (xs.map kept) = replaceEach (fun s p x => replace s p (kept x)) s p xs := by
  induction xs generalizing s p with
  | nil => rfl
  | cons x xs ih => exact ih (replace s p (kept x)) (p + 1)

/-- Replacing elements one after the other keeps a relation that replacing one element keeps. -/
theorem replaceEach_like {τ β : Type} {R : σ → τ → Prop} {replace' : τ → Nat → β → τ} {g : β → α}
    {size : Nat} (hset : ∀ {s t p} x, R s t → p < size → R (replace s p (g x)) (replace' t p x))
    {s : σ} {t : τ} {p : Nat} {xs : List β} (hst : R s t) (hle : p + xs.length ≤ size) :
    R (replaceEach replace s p (xs.map g)) (replaceEach replace' t p xs) := by
  induction xs generalizing s t p with
  | nil => exact hst
  | cons x xs ih =>
    rw [List.length_cons] at hle
    exact ih (hset x hst (by omega)) (by omega)

/-- Missing elements taken for null leave a channel plain. -/
theorem Plain.orNull (h : c.Plain inv item replace) (null : α) :
    (c.orNull null).Plain inv (fun s p => some (item s p)) fun s p x => replace s p (x.getD null) where
  keep x hs hp := h.keep (x.getD null) hs hp
  get {s p} hs hp := by
    show (some <$> c.get p).run.run s = _
    rw [ExceptT.run_map, Effect.run_map, h.get hs hp]
    rfl
  set x hs hp := h.set (x.getD null) hs hp
  read {s p n} hs hle := by
    show (Transfer.map some <$> c.read p n).run s = _
    rw [Effect.run_map, h.read hs hle]
    simp [Transfer.map, Transfer.done]
  write {s p xs} hs hle := by
    have hle' : p + (xs.map (·.getD null)).length ≤ c.size := by
      rw [List.length_map]
      exact hle
    rw [← replaceEach_map]
    exact h.write hs hle'
  get_error {s p} hp := by
    show (some <$> c.get p).run.run s = _
    rw [ExceptT.run_map, Effect.run_map, h.get_error hp]
    rfl
  set_error hp := h.set_error hp
  read_error {s p n} hle := by
    show (Transfer.map some <$> c.read p n).run s = _
    rw [Effect.run_map, h.read_error hle]
    rfl
  write_error {s p xs} hle := by
    have hlen : (xs.map (·.getD null)).length = xs.length := List.length_map _
    have hle' : ¬ p + (xs.map (·.getD null)).length ≤ c.size := hlen ▸ hle
    have herror : (c.write p (xs.map (·.getD null))).run.run s = _ := h.write_error hle'
    rwa [hlen] at herror

theorem Plain.run_readEach (h : c.Plain inv item replace) {s : σ} (hs : inv s) {p n : Nat}
    (hle : p + n ≤ c.size) :
    (c.readEach p n).run s = ⟨.done ((List.range' p n).map (item s)), [], s⟩ := by
  induction n generalizing p with
  | zero => rfl
  | succ n ih =>
    rw [readEach, Effect.run_bind, h.get hs (by omega)]
    show ⟨_, _ ++ _, _⟩ = (⟨_, _, _⟩ : Outcome σ (Transfer α))
    rw [Effect.run_bind, ih (by omega)]
    rfl

theorem run_writeEach_cons (c : Channel σ α) (p : Nat) (x : α) (xs : List α) (s : σ) :
    (c.writeEach p (x :: xs)).run.run s =
      ((c.set p x).run >>= ExceptT.bindCont fun _ => c.writeEach (p + 1) xs).run s := rfl

theorem Plain.run_writeEach (h : c.Plain inv item replace) {s : σ} (hs : inv s) {p : Nat} {xs : List α}
    (hle : p + xs.length ≤ c.size) :
    (c.writeEach p xs).run.run s = ⟨.ok (), [], replaceEach replace s p xs⟩ := by
  induction xs generalizing s p with
  | nil => rfl
  | cons x xs ih =>
    rw [List.length_cons] at hle
    have hp : p < c.size := by omega
    have hrest := ih (h.keep x hs hp) (p := p + 1) (by omega)
    rw [run_writeEach_cons, Effect.run_bind, h.set x hs hp]
    exact hrest

/-- Moving the elements one at a time leaves a channel plain. -/
theorem Plain.stepwise (h : c.Plain inv item replace) : c.stepwise.Plain inv item replace where
  keep := h.keep
  get := h.get
  set := h.set
  read {s p n} hs hle := by
    rw [← h.run_readEach hs hle]
    exact (run_readWithin c.size p n _ s).trans (if_pos hle)
  write {s p xs} hs hle := by
    rw [← h.run_writeEach hs hle]
    exact (run_writeWithin c.size p xs.length _ s).trans (if_pos hle)
  get_error := h.get_error
  set_error := h.set_error
  read_error {s p n} hle := (run_readWithin c.size p n _ s).trans (if_neg hle)
  write_error {s p xs} hle := (run_writeWithin c.size p xs.length _ s).trans (if_neg hle)

/-! ## Lists -/

/-- Replacing entries of a list one after the other replaces a stretch of it. -/
theorem replaceEach_set (xs : List α) (p : Nat) {ys : List α}
    (h : p + ys.length ≤ xs.length) :
    replaceEach List.set xs p ys = xs.take p ++ ys ++ xs.drop (p + ys.length) := by
  induction ys generalizing xs p with
  | nil => simp [replaceEach]
  | cons y ys ih =>
    rw [List.length_cons] at h
    have hrest : p + 1 + ys.length ≤ (xs.set p y).length := by
      rw [List.length_set]
      omega
    have hshort : (xs.take p).length ≤ p + 1 := by
      rw [List.length_take]
      omega
    have hhead : (xs.set p y).take (p + 1) = xs.take p ++ [y] := by
      rw [List.set_eq_take_append_cons_drop, if_pos (by omega), List.take_append,
        List.take_of_length_le hshort]
      simp [show p ≤ xs.length by omega]
    have htail : (xs.set p y).drop (p + 1 + ys.length) = xs.drop (p + (ys.length + 1)) := by
      rw [List.drop_set_of_lt (by omega)]
      congr 1
      omega
    rw [replaceEach, ih _ _ hrest, hhead, htail, List.length_cons]
    simp

section
variable {β : Type} {R : σ → List β → Prop} {shown : β → α} {kept : α → β} {s : σ} {xs : List β}

/-- If elements are those of a list, a stretch of them is a stretch of the list. -/
theorem map_range'_eq_stretch {f : Nat → α} (hf : ∀ {q x}, xs[q]? = some x → f q = shown x)
    {p n : Nat} (hle : p + n ≤ xs.length) :
    (List.range' p n).map f = ((xs.drop p).take n).map shown := by
  apply List.ext_getElem
  · simp
    omega
  · intro i hi hi'
    have hlt : p + i < xs.length := by
      simp at hi'
      omega
    simpa using hf (List.getElem?_eq_getElem hlt)

/-- If replacing an element sets an entry of a list, replacing one after the other overwrites a stretch
of the list. -/
theorem replaceEach_overwrites
    (hreplace : ∀ {s p xs} x, R s xs → p < xs.length → R (replace s p x) (xs.set p (kept x)))
    (hR : R s xs) {p : Nat} {ys : List α} (hle : p + ys.length ≤ xs.length) :
    R (replaceEach replace s p ys) (xs.take p ++ ys.map kept ++ xs.drop (p + ys.length)) := by
  have hset : ∀ {s q zs} (x : α), R s zs ∧ zs.length = xs.length → q < xs.length →
      R (replace s q x) (zs.set q (kept x)) ∧ (zs.set q (kept x)).length = xs.length := by
    rintro s q zs x ⟨hR, hsize⟩ hq
    exact ⟨hreplace x hR (hsize ▸ hq), List.length_set.trans hsize⟩
  have hrelated := replaceEach_like (R := fun s zs => R s zs ∧ zs.length = xs.length) (g := id)
    hset ⟨hR, rfl⟩ hle
  have hlen : (ys.map kept).length = ys.length := List.length_map _
  rw [← hlen, ← replaceEach_set xs p (hlen.symm ▸ hle), replaceEach_map]
  rw [List.map_id] at hrelated
  exact hrelated.1

/-- A plain channel whose states stand for lists answers as the list. Its elements are those of the list
as `shown`, and replacing one puts an element `kept` in some form into the list. -/
theorem Plain.answer_onList (h : c.Plain inv item replace)
    (hitem : ∀ {s p x xs}, R s xs → xs[p]? = some x → item s p = shown x)
    (hreplace : ∀ {s p xs} x, R s xs → p < xs.length → R (replace s p x) (xs.set p (kept x)))
    (hs : inv s) (hR : R s xs) (hsize : xs.length = c.size) (r : Request α) :
    ((c.answer r).run s).value = (r.onList shown kept xs).1 ∧
      R ((c.answer r).run s).state (r.onList shown kept xs).2 := by
  rw [(h.answer hs r).1, ← hsize]
  cases r with
  | get p =>
    simp only [Request.onState, Request.onList]
    rcases Nat.lt_or_ge p xs.length with hp | hp
    · rw [if_pos hp, List.getElem?_eq_getElem hp, hitem hR (List.getElem?_eq_getElem hp)]
      exact ⟨rfl, hR⟩
    · rw [if_neg (Nat.not_lt.2 hp), List.getElem?_eq_none hp]
      exact ⟨rfl, hR⟩
  | set p x =>
    simp only [Request.onState, Request.onList]
    split
    · next hp => exact ⟨rfl, hreplace x hR hp⟩
    · exact ⟨rfl, hR⟩
  | read p buffer =>
    simp only [Request.onState, Request.onList]
    split
    · next hle =>
      rw [map_range'_eq_stretch (fun hx => hitem hR hx) hle]
      exact ⟨rfl, hR⟩
    · exact ⟨rfl, hR⟩
  | write p ys =>
    simp only [Request.onState, Request.onList]
    split
    · next hle => exact ⟨rfl, replaceEach_overwrites (R := R) hreplace hR hle⟩
    · exact ⟨rfl, hR⟩

end

end Channel

end Orthotope
