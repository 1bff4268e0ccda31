import Orthotope.Layout.Lemmas
import Orthotope.Proofs.Channel.Missing
import Orthotope.Storage.Ragged

/-!
# Nested lists as plain channels

A bulk transfer of nested lists steps from coordinates to the next ones in row-major order, which comes
to the same as finding the coordinates of each position (`Nested.findFrom_eq`,
`Nested.replaceFrom_eq`). So both channels are plain. They agree, a missing element counting as `null`
(`Nested.agrees`), because replacing an element neither fills nor makes a hole
(`Nested.find_replace`).
-/

namespace Orthotope

namespace Nested

variable {α : Type} {shape : List Nat}

/-- After an element was replaced, the new one is found in its place, or still none. -/
theorem find_replace (t : Nested α) (x : α) (coords : List Nat) :
    (t.replace x coords).find coords = (t.find coords).map fun _ => x := by
  induction coords generalizing t with
  | nil => cases t <;> rfl
  | cons i rest ih =>
    cases t with
    | values xs =>
      cases rest with
      | nil =>
        simp only [replace, find, List.getElem?_set_self']
        cases xs[i]? <;> rfl
      | cons => rfl
    | lists ts =>
      simp only [replace, find, List.getElem?_modify_eq]
      rcases ts[i]? with _ | t
      · rfl
      · exact ih t

/-- Replacing an element leaves what is found at other coordinates. -/
theorem find_replace_of_ne (t : Nested α) (x : α) {coords coords' : List Nat} (hne : coords' ≠ coords) :
    (t.replace x coords).find coords' = t.find coords' := by
  induction coords generalizing t coords' with
  | nil => cases t <;> rfl
  | cons i rest ih =>
    cases t with
    | values xs =>
      rcases rest with _ | ⟨j, rest⟩
      · rcases coords' with _ | ⟨i', _ | ⟨j', rest'⟩⟩
        · rfl
        · exact List.getElem?_set_ne fun heq => hne (by rw [heq])
        · rfl
      · rfl
    | lists ts =>
      rcases coords' with _ | ⟨i', rest'⟩
      · rfl
      simp only [replace, find]
      rcases Decidable.em (i = i') with rfl | hi
      · rw [List.getElem?_modify_eq]
        rcases ts[i]? with _ | t
        · rfl
        · exact ih t fun heq => hne (by rw [heq])
      · rw [List.getElem?_modify_ne _ _ hi]

/-- The coordinates of the next position. -/
theorem unravel_succ {p : Nat} (h : p < sizeOf shape) :
    (advance shape (unravel shape p)).2 = unravel shape (p + 1) := by
  rw [advance_unravel h]

theorem findFrom_eq (t : Nested α) {p n : Nat} (h : p + n ≤ sizeOf shape) :
    t.findFrom shape (unravel shape p) n =
      (List.range' p n).map fun q => t.find (unravel shape q) := by
  induction n generalizing p with
  | zero => rfl
  | succ n ih =>
    rw [findFrom, unravel_succ (by omega), ih (by omega)]
    rfl

theorem replaceFrom_eq (t : Nested α) {p : Nat} {xs : List α} (h : p + xs.length ≤ sizeOf shape) :
    t.replaceFrom shape (unravel shape p) xs =
      replaceEach (fun t q x => t.replace x (unravel shape q)) t p xs := by
  induction xs generalizing t p with
  | nil => rfl
  | cons x xs ih =>
    rw [List.length_cons] at h
    rw [replaceFrom, unravel_succ (by omega), ih _ (by omega)]
    rfl

/-! ## The channels -/

theorem plain_raw (shape : List Nat) (null : α) :
    (access shape null).raw.Plain (fun _ => True) (fun t p => (t.find (unravel shape p)).getD null)
      fun t p x => t.replace x (unravel shape p) :=
  Channel.plain_ofState (fun _ _ _ => trivial)
    (fun {t p n} _ hle => by
      rw [findFrom_eq t hle, List.map_map]
      rfl)
    fun {t p xs} _ hle => replaceFrom_eq t hle

theorem plain_nullable (shape : List Nat) (null : α) :
    (access shape null).nullable.Plain (fun _ => True) (fun t p => t.find (unravel shape p))
      fun t p x => t.replace (x.getD null) (unravel shape p) := by
  have hwrite := ((plain_raw shape null).orNull null).stepwise
  exact
    { keep := fun _ _ _ => trivial
      get := fun {s p} _ hp => (Channel.run_checked (sizeOf shape) p _ s).trans (if_pos hp)
      set := hwrite.set
      read := fun {s p n} _ hle => by
        rw [← findFrom_eq s hle]
        exact (Channel.run_readWithin (sizeOf shape) p n _ s).trans (if_pos hle)
      write := hwrite.write
      get_error := fun {s p} hp => (Channel.run_checked (sizeOf shape) p _ s).trans (if_neg hp)
      set_error := hwrite.set_error
      read_error := fun {s p n} hle =>
        (Channel.run_readWithin (sizeOf shape) p n _ s).trans (if_neg hle)
      write_error := hwrite.write_error }

/-- A missing element counts as the null value with which the channels were made. -/
theorem agrees (shape : List Nat) (null : α) :
    (access shape null).Agrees (Access.EqWhere fun _ => True) null := by
  refine Access.agrees_of_plain_eq (plain_raw shape null) (plain_nullable shape null) rfl
    (fun _ _ => rfl) (fun _ _ _ => rfl) ?_
  intro t p _ _
  rw [find_replace]
  cases t.find (unravel shape p) <;> rfl

theorem orderly (shape : List Nat) (null : α) :
    (access shape null).Orderly (Access.EqWhere fun _ => True) := by
  refine Access.orderly_of_plain_eq (plain_raw shape null) (plain_nullable shape null) rfl ?_
  intro t p q x _ hp hq hne
  have hcoords : unravel shape q ≠ unravel shape p := fun heq => hne <| by
    rw [← offset_unravel hq, heq, offset_unravel hp]
  rw [find_replace_of_ne t _ hcoords]

end Nested

end Orthotope
