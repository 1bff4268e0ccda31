import Orthotope.Proofs.Channel.Written
import Orthotope.Proofs.Storage.Levels
import Orthotope.Proofs.Storage.Ragged
import Orthotope.Proofs.View.Compose

/-!
# Nested lists by their paths

The elements of nested lists stand at paths, which say the place in each list on the way to the element
(`Nested.At`). The shape is that of the longest list at each level (`Nested.getElem?_lengths`), and if
all lists have the same depth, every path lies in it (`Nested.At.within`).

`Nested.mapPaths` changes elements and leaves all lists as they are. Replacing one element is such a
change (`Nested.replace_eq_mapPaths`), and so are replacing a stretch of positions
(`Nested.replaceEach_mapPaths`) and any requests one after the other
(`Nested.state_answers`): what is left are the lists that there were, with the elements that were last
put to the positions of their paths.
-/

namespace Orthotope

namespace Nested

variable {α β γ : Type}

/-! ## Elements and lengths -/

/-- An element stands at a path. -/
inductive At (x : α) : Nested α → List Nat → Prop
  | here {xs : List α} {i : Nat} (h : xs[i]? = some x) : At x (values xs) [i]
  | inside {ts : List (Nested α)} {t : Nested α} {i : Nat} {path : List Nat} (h : ts[i]? = some t)
      (rest : At x t path) : At x (lists ts) (i :: path)

theorem find_eq_some_iff {t : Nested α} {path : List Nat} {x : α} :
    t.find path = some x ↔ At x t path := by
  constructor
  · intro h
    induction path generalizing t with
    | nil => cases t <;> cases h
    | cons i path ih =>
      cases t with
      | values xs =>
        cases path with
        | nil => exact .here h
        | cons => cases h
      | lists ts =>
        rw [find] at h
        cases ht : ts[i]? with
        | none =>
          rw [ht] at h
          cases h
        | some t =>
          rw [ht] at h
          exact .inside ht (ih h)
  · intro h
    induction h with
    | here h => exact h
    | inside h _ ih =>
      rw [find, h]
      exact ih

mutual

/-- The lengths of the lists at a nesting level. -/
def sizesAt : Nat → Nested α → List Nat
  | 0, values xs => [xs.length]
  | 0, lists ts => [ts.length]
  | _ + 1, values _ => []
  | level + 1, lists ts => sizesAtAll level ts

/-- The lengths of the lists at a nesting level of some lists. -/
def sizesAtAll : Nat → List (Nested α) → List Nat
  | _, [] => []
  | level, t :: ts => sizesAt level t ++ sizesAtAll level ts

end

theorem sizesAtAll_eq (level : Nat) (ts : List (Nested α)) :
    sizesAtAll level ts = ts.flatMap (sizesAt level) := by
  induction ts with
  | nil => rfl
  | cons t ts ih => rw [sizesAtAll, ih, List.flatMap_cons]

theorem max?_append (ms ns : List Nat) : (ms ++ ns).max? = Option.merge max ms.max? ns.max? := by
  induction ms with
  | nil => cases h : ns.max? <;> simp [Option.merge, h]
  | cons m ms ih =>
    rw [List.cons_append, List.max?_cons, List.max?_cons, ih]
    cases ms.max? <;> cases ns.max? <;> simp [Option.merge, Nat.max_assoc]

theorem getElem?_longest (ms ns : List Nat) (level : Nat) :
    (longest ms ns)[level]? = Option.merge max ms[level]? ns[level]? := by
  induction ms generalizing ns level with
  | nil => cases h : ns[level]? <;> simp only [longest, List.getElem?_nil, h, Option.merge]
  | cons m ms ih =>
    cases ns with
    | nil => cases h : (m :: ms)[level]? <;> simp only [longest, List.getElem?_nil, h, Option.merge]
    | cons n ns =>
      cases level with
      | zero => rfl
      | succ level => exact ih ns level

/-- The shape has the length of the longest list at each level. -/
theorem getElem?_lengths (t : Nested α) (level : Nat) :
    t.lengths[level]? = (t.sizesAt level).max? := by
  induction t using induct generalizing level with
  | values xs => cases level <;> rfl
  | lists ts ih =>
    cases level with
    | zero => rfl
    | succ level =>
      rw [lengths, sizesAt, List.getElem?_cons_succ]
      induction ts with
      | nil => rfl
      | cons t ts ih' =>
        obtain ⟨ht, hts⟩ := List.forall_mem_cons.1 ih
        rw [lengthsAll, sizesAtAll, getElem?_longest, max?_append, ht, ih' hts]

/-! ## Paths lie in the shape -/

theorem length_longest (ms ns : List Nat) :
    (longest ms ns).length = max ms.length ns.length := by
  induction ms generalizing ns with
  | nil => simp [longest]
  | cons m ms ih =>
    cases ns with
    | nil => simp [longest]
    | cons n ns => simp [longest, ih, Nat.add_max_add_right]

/-- If all lists have the same depth, there is a length for each level, and every path goes through all
of them. -/
theorem levels_of_depth {t : Nested α} {d : Depth} (h : t.depth = .ok d) :
    t.lengths.length = d.levels ∧ ∀ {x path}, At x t path → d = .exactly path.length := by
  induction t using induct generalizing d with
  | values xs =>
    cases h
    refine ⟨rfl, fun hat => ?_⟩
    cases hat
    rfl
  | lists ts ih =>
    rw [depth_lists] at h
    obtain ⟨all, hall, hd⟩ := bind_eq_ok h
    clear h
    cases hd
    suffices hlevels : (lengthsAll ts).length = all.levels ∧
        ∀ t ∈ ts, ∀ {x path}, At x t path → all = .exactly path.length by
      refine ⟨?_, fun hat => ?_⟩
      · rw [lengths, List.length_cons, hlevels.1]
        cases all <;> rfl
      · cases hat with
        | inside ht rest =>
          rw [hlevels.2 _ (List.mem_of_getElem? ht) rest]
          rfl
    induction ts generalizing all with
    | nil =>
      cases hall
      exact ⟨rfl, fun _ ht => absurd ht List.not_mem_nil⟩
    | cons t ts ih' =>
      obtain ⟨ht, hts⟩ := List.forall_mem_cons.1 ih
      obtain ⟨first, hfirst, hall⟩ := bind_eq_ok hall
      obtain ⟨others, hothers, hmeet⟩ := bind_eq_ok hall
      obtain ⟨hlevels, hexact⟩ := Depth.meet_eq_ok hmeet
      obtain ⟨hlen, hpaths⟩ := ht hfirst
      obtain ⟨hlen', hpaths'⟩ := ih' hts others hothers
      refine ⟨by rw [lengthsAll, length_longest, hlen, hlen', hlevels], ?_⟩
      refine List.forall_mem_cons.2 ⟨fun hat => ?_, fun t ht _ _ hat => ?_⟩
      · exact hexact _ (.inl (hpaths hat))
      · exact hexact _ (.inr (hpaths' t ht hat))

/-- A path lies in a shape that has an axis for each of its levels and is as long as every list. -/
theorem At.within_of_sizes {t : Nested α} {x : α} {path : List Nat} (h : At x t path)
    {shape : List Nat} (hlen : path.length = shape.length)
    (hsizes : ∀ level, ∀ n ∈ t.sizesAt level, n ≤ shape.getD level 0) : Within shape path := by
  induction h generalizing shape with
  | @here xs i h =>
    cases shape with
    | nil => cases hlen
    | cons m shape =>
      obtain rfl := List.eq_nil_of_length_eq_zero (Nat.succ.inj hlen).symm
      have hle := hsizes 0 xs.length List.mem_cons_self
      exact ⟨Nat.lt_of_lt_of_le (List.getElem?_eq_some_iff.1 h).1 hle, trivial⟩
  | @inside ts t i path h _ ih =>
    cases shape with
    | nil => cases hlen
    | cons m shape =>
      have hle := hsizes 0 ts.length List.mem_cons_self
      refine ⟨Nat.lt_of_lt_of_le (List.getElem?_eq_some_iff.1 h).1 hle, ih (Nat.succ.inj hlen) ?_⟩
      intro level n hn
      refine hsizes (level + 1) n ?_
      rw [sizesAt, sizesAtAll_eq]
      exact List.mem_flatMap.2 ⟨t, List.mem_of_getElem? h, hn⟩

/-- Every element stands within the shape. -/
theorem At.within {t : Nested α} {shape : List Nat} (hshape : t.shape = .ok shape) {x : α}
    {path : List Nat} (h : At x t path) : Within shape path := by
  obtain ⟨d, hdepth, hshape⟩ := bind_eq_ok hshape
  obtain rfl : t.lengths = shape := Except.ok.inj hshape
  obtain ⟨hlen, hpaths⟩ := levels_of_depth hdepth
  refine h.within_of_sizes (by rw [hlen, hpaths h]; rfl) fun level n hn => ?_
  rw [List.getD_eq_getElem?_getD, getElem?_lengths]
  rcases hmax : (t.sizesAt level).max? with _ | m
  · rw [List.max?_eq_none_iff.1 hmax] at hn
    cases hn
  · exact (List.max?_eq_some_iff.1 hmax).2 n hn

/-! ## Changing elements -/

mutual

/-- Changes each element, given its path, and leaves the lists as they are. -/
def mapPaths (f : List Nat → α → β) : Nested α → Nested β
  | values xs => values (xs.mapIdx fun i x => f [i] x)
  | lists ts => lists (mapPathsAll f 0 ts)

/-- Changes each element of some lists, which stand in a list from place `i` on. -/
def mapPathsAll (f : List Nat → α → β) (i : Nat) : List (Nested α) → List (Nested β)
  | [] => []
  | t :: ts => mapPaths (fun path => f (i :: path)) t :: mapPathsAll f (i + 1) ts

end

theorem mapPaths_lists (f : List Nat → α → β) (ts : List (Nested α)) :
    (lists ts).mapPaths f = lists (ts.mapIdx fun i t => t.mapPaths fun path => f (i :: path)) := by
  have hall : ∀ (ts : List (Nested α)) (i : Nat), mapPathsAll f i ts =
      ts.mapIdx fun j t => t.mapPaths fun path => f ((i + j) :: path) := by
    intro ts
    induction ts with
    | nil => exact fun _ => rfl
    | cons t ts ih =>
      intro i
      rw [mapPathsAll, ih, List.mapIdx_cons]
      simp only [Nat.add_zero, Nat.add_assoc, Nat.add_comm 1]
  rw [mapPaths, hall]
  simp only [Nat.zero_add]

/-- Changes that agree on the elements that are there are the same. -/
theorem mapPaths_congr {f g : List Nat → α → β} {t : Nested α}
    (h : ∀ {x path}, At x t path → f path x = g path x) : t.mapPaths f = t.mapPaths g := by
  induction t using induct generalizing f g with
  | values xs =>
    rw [mapPaths, mapPaths, List.mapIdx_eq_mapIdx_iff.2 fun i hi => ?_]
    exact h (.here (List.getElem?_eq_getElem hi))
  | lists ts ih =>
    rw [mapPaths_lists, mapPaths_lists, List.mapIdx_eq_mapIdx_iff.2 fun i hi => ?_]
    exact ih _ (List.getElem_mem hi) fun hat => h (.inside (List.getElem?_eq_getElem hi) hat)

theorem mapPaths_self (t : Nested α) : t.mapPaths (fun _ x => x) = t := by
  induction t using induct with
  | values xs =>
    rw [mapPaths]
    congr 1
    exact List.ext_getElem List.length_mapIdx fun i _ _ => List.getElem_mapIdx
  | lists ts ih =>
    rw [mapPaths_lists]
    congr 1
    refine List.ext_getElem (List.length_mapIdx) fun i hi hi' => ?_
    rw [List.getElem_mapIdx]
    exact ih _ (List.getElem_mem hi')

theorem mapPaths_mapPaths (f : List Nat → α → β) (g : List Nat → β → γ) (t : Nested α) :
    (t.mapPaths f).mapPaths g = t.mapPaths fun path x => g path (f path x) := by
  induction t using induct generalizing f g with
  | values xs =>
    rw [mapPaths, mapPaths, mapPaths, List.mapIdx_mapIdx]
    rfl
  | lists ts ih =>
    rw [mapPaths_lists, mapPaths_lists, mapPaths_lists, List.mapIdx_mapIdx,
      List.mapIdx_eq_mapIdx_iff.2 fun i hi => ?_]
    exact ih _ (List.getElem_mem hi) ..

/-- A change that changes no element. -/
theorem mapPaths_eq_self {f : List Nat → α → α} {t : Nested α}
    (h : ∀ {x path}, At x t path → f path x = x) : t.mapPaths f = t :=
  (mapPaths_congr h).trans (mapPaths_self t)

/-- Replacing the element at coordinates changes the one that stands there. -/
theorem replace_eq_mapPaths (t : Nested α) (x : α) (coords : List Nat) :
    t.replace x coords = t.mapPaths fun path y => if path = coords then x else y := by
  induction t using induct generalizing coords with
  | values xs =>
    rcases coords with _ | ⟨i, _ | ⟨j, coords⟩⟩
    · refine (mapPaths_eq_self fun hat => if_neg ?_).symm
      cases hat
      exact List.cons_ne_nil _ _
    · rw [replace, mapPaths]
      congr 1
      refine List.ext_getElem (by simp) fun j hj hj' => ?_
      rw [List.getElem_mapIdx, List.getElem_set]
      simp [eq_comm]
    · refine (mapPaths_eq_self fun hat => if_neg ?_).symm
      cases hat
      simp
  | lists ts ih =>
    rcases coords with _ | ⟨i, coords⟩
    · refine (mapPaths_eq_self fun hat => if_neg ?_).symm
      cases hat
      exact List.cons_ne_nil _ _
    · rw [mapPaths_lists, replace]
      congr 1
      refine List.ext_getElem (by simp) fun j hj hj' => ?_
      rw [List.getElem_mapIdx, List.getElem_modify]
      split
      · next hij =>
        subst hij
        rw [ih _ (List.getElem_mem _)]
        simp only [List.cons.injEq, true_and]
      · next hij =>
        refine (mapPaths_eq_self fun _ => if_neg fun heq => ?_).symm
        exact hij (List.cons.inj heq).1.symm

/-! ## Requests -/

variable {shape : List Nat} {items : Nested α}

/-- Replacing elements by their positions, one after the other, changes those whose paths have these
positions. -/
theorem replaceEach_mapPaths (hwithin : ∀ {x path}, At x items path → Within shape path)
    (f : List Nat → α → α) {p : Nat} {xs : List α} (hle : p + xs.length ≤ sizeOf shape) :
    replaceEach (fun t q x => t.replace x (unravel shape q)) (items.mapPaths f) p xs =
      items.mapPaths fun path x => (placed p xs (offset shape path)).getD (f path x) := by
  induction xs generalizing f p with
  | nil => simp [replaceEach]
  | cons x xs ih =>
    rw [List.length_cons] at hle
    rw [replaceEach, replace_eq_mapPaths, mapPaths_mapPaths, ih _ (by omega)]
    refine mapPaths_congr fun {y path} hat => ?_
    have hpath : path = unravel shape p ↔ offset shape path = p := by
      constructor
      · rintro rfl
        exact offset_unravel (by omega)
      · rintro rfl
        exact (unravel_offset (hwithin hat)).symm
    rw [placed_cons]
    simp only [hpath]
    split
    · next hp =>
      rw [placed_of_not_mem (.inl (by omega))]
      rfl
    · rfl

/-- Any requests leave the lists that there were, with the elements that were put last. -/
theorem state_answers (hwithin : ∀ {x path}, At x items path → Within shape path) (null : α)
    (requests : List (Access.Request α)) :
    (((access shape null).answers requests).run items).state = items.mapPaths fun path x =>
      (Access.lastPut (sizeOf shape) null requests (offset shape path)).getD x := by
  have hplain : (access shape null).PlainBoth (fun _ => True)
      (fun t p x => t.replace x (unravel shape p)) null :=
    ⟨⟨_, plain_raw shape null⟩, ⟨_, plain_nullable shape null⟩, rfl⟩
  have hput : ∀ {t : Nested α} {g : Nat → Option α} {p : Nat} {xs : List α},
      (t = items.mapPaths fun path x => (g (offset shape path)).getD x) →
      p + xs.length ≤ sizeOf shape →
      replaceEach (fun t p x => t.replace x (unravel shape p)) t p xs = items.mapPaths fun path x =>
        ((placed p xs (offset shape path)).or (g (offset shape path))).getD x := by
    rintro t g p xs rfl hle
    rw [replaceEach_mapPaths hwithin _ hle]
    refine mapPaths_congr fun _ => ?_
    rw [Option.getD_or]
  have hlast := Access.state_answers_lastPut (g := fun _ => none) (s := items)
    (R := fun t g => t = items.mapPaths fun path x => (g (offset shape path)).getD x)
    (fun {t g} r hR => (hplain.answer_puts
      (R := fun t g => t = items.mapPaths fun path x => (g (offset shape path)).getD x)
      hput trivial hR r)) requests (mapPaths_self items).symm
  simp only [Option.or_none] at hlast
  exact hlast

end Nested

end Orthotope
