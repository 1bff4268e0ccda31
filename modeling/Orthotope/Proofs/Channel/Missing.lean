import Orthotope.Proofs.Channel.Keeps
import Orthotope.Proofs.Channel.Layers

/-!
# Missing elements

The raw and the nullable channel of a cube lead to the same elements. They agree (`Access.Agrees`) if
the nullable channel reads what the raw channel reads, once missing elements are taken for a certain
value; if it does not matter on which of them an element is written; and if a position to which a
missing element was written reads as that value. An access is gapless (`Access.Gapless`) if no element
is missing.

Views and conversions keep both (`Access.Agrees.through`, `Access.Agrees.convert`); the value of a
missing element is converted with the others. For storage that is plain on both channels, all of it
follows from the functions that describe the storage (`Access.agrees_of_plain`).

In a bulk write some elements may be missing and others not. Each position to which a missing one was
written reads as it should (`Access.Agrees.eraseAll`), if a bulk write comes to single ones and a single
write leaves all other positions as they are (`Access.Orderly`). Views have to fit for that.
-/

namespace Orthotope

variable {σ α β : Type} {R : σ → σ → Prop}

namespace Channel.Plain

variable {c : Channel σ α} {d : Channel σ β} {inv inv' : σ → Prop} {item : σ → Nat → α}
  {replace : σ → Nat → α → σ} {item' : σ → Nat → β} {replace' : σ → Nat → β → σ}

/-- Plain channels read alike if they read single elements alike. -/
theorem readsLike {f : α → β} (hc : c.Plain inv item replace) (hd : d.Plain inv' item' replace')
    (hsize : c.size = d.size) (hinv : ∀ {s t}, R s t → inv s ∧ inv' t)
    (hitem : ∀ {s t p}, R s t → p < c.size → f (item s p) = item' t p) : c.ReadsLike R f d where
  size := hsize
  get p := by
    intro s t hst
    obtain ⟨hs, ht⟩ := hinv hst
    rcases Nat.lt_or_ge p c.size with hp | hp
    · rw [hc.get hs hp, hd.get ht (hsize ▸ hp)]
      exact ⟨congrArg Except.ok (hitem hst hp), hst⟩
    · rw [hc.get_error (Nat.not_lt.2 hp), hd.get_error (Nat.not_lt.2 (hsize ▸ hp)), hsize]
      exact ⟨rfl, hst⟩
  read p n := by
    intro s t hst
    obtain ⟨hs, ht⟩ := hinv hst
    rcases Nat.lt_or_ge c.size (p + n) with hlt | hle
    · rw [hc.read_error (Nat.not_le.2 hlt), hd.read_error (Nat.not_le.2 (hsize ▸ hlt)), hsize]
      exact ⟨rfl, hst⟩
    · rw [hc.read hs hle, hd.read ht (hsize ▸ hle)]
      refine ⟨?_, hst⟩
      show Transfer.done (((List.range' p n).map (item s)).map f) = _
      rw [List.map_map]
      refine congrArg Transfer.done (List.map_congr_left fun q hq => hitem hst ?_)
      exact Nat.lt_of_lt_of_le (List.mem_range'_1.1 hq).2 hle

/-- Plain channels write alike if they write single elements alike. -/
theorem writesLike {g : β → α} (hc : c.Plain inv item replace) (hd : d.Plain inv' item' replace')
    (hsize : c.size = d.size) (hinv : ∀ {s t}, R s t → inv s ∧ inv' t)
    (hset : ∀ {s t p} x, R s t → p < c.size → R (replace s p (g x)) (replace' t p x)) :
    c.WritesLike R g d where
  size := hsize
  set p x := by
    intro s t hst
    obtain ⟨hs, ht⟩ := hinv hst
    unfold Act.outcome
    rcases Nat.lt_or_ge p c.size with hp | hp
    · rw [hc.set (g x) hs hp, hd.set x ht (hsize ▸ hp)]
      exact ⟨rfl, hset x hst hp⟩
    · rw [hc.set_error (Nat.not_lt.2 hp), hd.set_error (Nat.not_lt.2 (hsize ▸ hp)), hsize]
      exact ⟨rfl, hst⟩
  write p xs := by
    intro s t hst
    obtain ⟨hs, ht⟩ := hinv hst
    have hlen : (xs.map g).length = xs.length := List.length_map g
    unfold Act.outcome
    rcases Nat.lt_or_ge c.size (p + xs.length) with hlt | hle
    · rw [hc.write_error (hlen ▸ Nat.not_le.2 hlt), hd.write_error (Nat.not_le.2 (hsize ▸ hlt)), hlen,
        hsize]
      exact ⟨rfl, hst⟩
    · rw [hc.write hs (hlen ▸ hle), hd.write ht (hsize ▸ hle)]
      exact ⟨rfl, replaceEach_like hset hst hle⟩

/-- A plain channel does as its stepwise form, up to a relation that replacing elements keeps. -/
theorem asStepwise (h : c.Plain inv item replace) (hinv : ∀ {s t}, R s t → inv s ∧ inv t)
    (hitem : ∀ {s t p}, R s t → p < c.size → item s p = item t p)
    (hset : ∀ {s t p} x, R s t → p < c.size → R (replace s p x) (replace t p x)) :
    c.LikeStepwise R where
  read p n := by
    have hreads : c.ReadsLike R id c.stepwise := h.readsLike h.stepwise rfl hinv hitem
    intro s t hst
    obtain ⟨hvalue, hstate⟩ := hreads.readSpan ⟨p, n⟩ s t hst
    rw [List.map_id_fun, Except.map_id] at hvalue
    exact ⟨hvalue, hstate⟩
  write p xs := by
    have hwrites : c.WritesLike R id c.stepwise := h.writesLike h.stepwise rfl hinv hset
    have hwrite := hwrites.write p xs
    rwa [List.map_id] at hwrite

end Channel.Plain

namespace Access

/-- The nullable channel agrees with the raw one, `missing` being the value of a missing element. States
are compared up to a relation, and those that it does not relate to any are left out. -/
structure Agrees (R : σ → σ → Prop) (missing : α) (a : Access σ α) : Prop where
  reads : a.nullable.ReadsLike R (·.getD missing) a.raw
  writes : a.nullable.WritesLike R some a.raw
  erase : ∀ {s s' t p}, R s s' → (a.nullable.set p none).outcome s = (.ok (), t) →
    (a.raw.get p).outcome t = (.ok missing, t)

/-- No element is missing. -/
def Gapless (R : σ → σ → Prop) (a : Access σ α) : Prop := a.raw.ReadsLike R some a.nullable

/-- Bulk writes to the nullable channel come to single ones, and a single one leaves what the raw channel
reads elsewhere. -/
structure Orderly (R : σ → σ → Prop) (a : Access σ α) : Prop where
  stepwise : a.nullable.LikeStepwise R
  frame : ∀ {s s' t p q x}, R s s' → p ≠ q → (a.nullable.set p x).outcome s = (.ok (), t) →
    ((a.raw.get q).outcome t).1 = ((a.raw.get q).outcome s).1

variable {a : Access σ α} {missing : α}

theorem Agrees.through (h : a.Agrees R missing) (v : View) : (a.through v).Agrees R missing where
  reads := h.reads.through v false true
  writes := h.writes.through v false true
  erase {s s' t p} hs hset := by
    have hp : p < v.size := Channel.lt_of_checked hset
    have hbeneath := (congrFun (Channel.outcome_checked hp _) s).symm.trans hset
    exact (congrFun (Channel.outcome_checked hp _) t).trans (h.erase hs hbeneath)

theorem Gapless.through (h : a.Gapless R) (v : View) : (a.through v).Gapless R :=
  Channel.ReadsLike.through h v true false

theorem Orderly.through (h : a.Orderly R) {v : View} (hv : v.Fits)
    (hsize : a.nullable.size = sizeOf v.source) : (a.through v).Orderly R where
  stepwise := h.stepwise.uniform.through hv hsize
  frame {s s' t p q x} hs hne hset := by
    have hp : p < v.size := Channel.lt_of_checked hset
    have hbeneath := (congrFun (Channel.outcome_checked hp _) s).symm.trans hset
    rcases Nat.lt_or_ge q v.size with hq | hq
    · have hget := Channel.outcome_checked hq (a.raw.get (v.position q))
      refine (congrArg Prod.fst (congrFun hget t)).trans ?_
      refine Eq.trans ?_ (congrArg Prod.fst (congrFun hget s)).symm
      exact h.frame hs (fun heq => hne (hv.position_injective hp hq heq)) hbeneath
    · have herror : ∀ s, (((a.through v).raw.get q).outcome s).1 = .error (.position q v.size) := by
        intro s
        show (((a.through v).raw.get q).run.run s).value = _
        refine (congrArg Outcome.value (Channel.run_checked v.size q _ s)).trans ?_
        rw [if_neg (Nat.not_lt.2 hq)]
      rw [herror, herror]

section
variable {source : Kind} {a : Access σ source.Elem} {missing : source.Elem}

theorem Agrees.convert (h : a.Agrees R missing) (target : Kind) :
    (a.convert target).Agrees R (source.convert target missing) where
  reads := by
    have hinto : ∀ x : Option source.Elem, (x.map (source.convert target)).getD
        (source.convert target missing) = source.convert target (x.getD missing) := fun x => by
      cases x <;> rfl
    exact h.reads.convert hinto _ _ _ _
  writes := by
    have hback : ∀ x : target.Elem,
        (some x).map (target.convert source) = some (target.convert source x) := fun _ => rfl
    exact h.writes.convert hback _ _ _ _
  erase {s s' t p} hs hset := by
    show (source.convert target <$> a.raw.get p).outcome t = _
    rw [map_eq_pure_bind, Act.outcome_bind, h.erase hs hset, Act.resume_ok, Act.outcome_pure]

theorem Gapless.convert (h : a.Gapless R) (target : Kind) : (a.convert target).Gapless R := by
  have hinto : ∀ x : source.Elem, some (source.convert target x) =
      (some x).map (source.convert target) := fun _ => rfl
  exact Channel.ReadsLike.convert h hinto _ _ _ _

theorem Orderly.convert (h : a.Orderly R) (target : Kind) : (a.convert target).Orderly R where
  stepwise := h.stepwise.uniform.convert ..
  frame {s s' t p q x} hs hne hset := by
    have hget : ∀ s, (((a.convert target).raw.get q).outcome s).1 =
        ((a.raw.get q).outcome s).1.map (source.convert target) := by
      intro s
      show ((source.convert target <$> a.raw.get q).outcome s).1 = _
      rw [map_eq_pure_bind, Act.outcome_bind]
      rcases (a.raw.get q).outcome s with ⟨e | x, s'⟩ <;> rfl
    have hframe : ((a.raw.get q).outcome t).1 = ((a.raw.get q).outcome s).1 := h.frame hs hne hset
    rw [hget, hget, hframe]

end

/-! ## Bulk writes of missing elements -/

section
variable {I : σ → Prop}

/-- Single writes to other positions leave what the raw channel reads. -/
theorem Orderly.frameEach (h : a.Orderly R) (hkeeps : a.nullable.Keeps I) (hI : ∀ {s}, I s → R s s)
    {s t : σ} {p q : Nat} {xs : List (Option α)} (hs : I s) (hlt : q < p)
    (hrun : (a.nullable.writeEach p xs).outcome s = (.ok (), t)) :
    ((a.raw.get q).outcome t).1 = ((a.raw.get q).outcome s).1 := by
  induction xs generalizing s p with
  | nil =>
    cases hrun
    rfl
  | cons x xs ih =>
    have hkept : I ((a.nullable.set p x).outcome s).2 := hkeeps.set hs p x
    rw [Channel.writeEach, Act.outcome_bind] at hrun
    generalize hset : (a.nullable.set p x).outcome s = o at hrun hkept
    rcases o with ⟨e | u, s'⟩
    · cases hrun
    · exact (ih hkept (Nat.lt_succ_of_lt hlt) hrun).trans (h.frame (hI hs) (Nat.ne_of_gt hlt) hset)

/-- After single writes, positions to which a missing element was written read as that. -/
theorem Agrees.eraseEach (h : a.Agrees R missing) (horderly : a.Orderly R)
    (hkeeps : a.nullable.Keeps I) (hI : ∀ {s}, I s → R s s) {s t : σ} {p i : Nat}
    {xs : List (Option α)} (hs : I s) (hrun : (a.nullable.writeEach p xs).outcome s = (.ok (), t))
    (hi : xs[i]? = some none) : ((a.raw.get (p + i)).outcome t).1 = .ok missing := by
  induction xs generalizing s p i with
  | nil => cases hi
  | cons x xs ih =>
    have hkept : I ((a.nullable.set p x).outcome s).2 := hkeeps.set hs p x
    rw [Channel.writeEach, Act.outcome_bind] at hrun
    generalize hset : (a.nullable.set p x).outcome s = o at hrun hkept
    rcases o with ⟨e | u, s'⟩
    · cases hrun
    cases i with
    | zero =>
      obtain rfl : x = none := Option.some.inj hi
      rw [Nat.add_zero, horderly.frameEach hkeeps hI hkept (Nat.lt_succ_self p) hrun]
      exact congrArg Prod.fst (h.erase (hI hs) hset)
    | succ i =>
      rw [Nat.add_comm i 1, ← Nat.add_assoc]
      exact ih hkept hrun hi

/-- After a bulk write, positions to which a missing element was written read as that. -/
theorem Agrees.eraseAll (h : a.Agrees R missing) (horderly : a.Orderly R)
    (hkeeps : a.nullable.Keeps I) (hI : ∀ {s}, I s → R s s) {s t : σ} {p i : Nat}
    {xs : List (Option α)} (hs : I s) (hrun : (a.nullable.write p xs).outcome s = (.ok (), t))
    (hi : xs[i]? = some none) : ((a.raw.get (p + i)).outcome t).1 = .ok missing := by
  obtain ⟨hvalue, hstate⟩ := horderly.stepwise.write p xs s s (hI hs)
  have ht : I ((a.nullable.write p xs).outcome s).2 := hkeeps.write hs p xs
  rw [hrun] at hvalue hstate ht
  generalize hstepwise : (a.nullable.stepwise.write p xs).outcome s = o at hvalue hstate
  obtain ⟨value, t'⟩ := o
  obtain rfl : Except.ok () = value := hvalue
  have hle := Channel.le_of_writeWithin hstepwise
  have heach := (congrFun (Channel.outcome_writeWithin hle _) s).symm.trans hstepwise
  have hread := h.eraseEach horderly hkeeps hI hs heach hi
  have hsame := (h.reads.get (p + i) t t (hI ht)).1.symm.trans (h.reads.get (p + i) t t' hstate).1
  exact hsame.trans hread

end

/-! ## Plain storage -/

variable {inv : σ → Prop} {item : σ → Nat → α} {replace : σ → Nat → α → σ}
  {find : σ → Nat → Option α} {store : σ → Nat → Option α → σ}

/-- The channels of storage that is plain on both agree if they do so for single elements. -/
theorem agrees_of_plain (hraw : a.raw.Plain inv item replace) (hnullable : a.nullable.Plain inv find store)
    (hsize : a.nullable.size = a.raw.size) (hinv : ∀ {s t}, R s t → inv s ∧ inv t)
    (hitem : ∀ {s t} p, R s t → (find s p).getD missing = item t p)
    (hset : ∀ {s t p} x, R s t → p < a.raw.size → R (store s p (some x)) (replace t p x))
    (herase : ∀ {s p}, inv s → p < a.raw.size → item (store s p none) p = missing) :
    a.Agrees R missing where
  reads := hnullable.readsLike hraw hsize hinv fun hst _ => hitem _ hst
  writes := hnullable.writesLike hraw hsize hinv fun x hst hp => hset x hst (hsize ▸ hp)
  erase {s s' t p} hs hdone := by
    have hs := (hinv hs).1
    rcases Nat.lt_or_ge p a.nullable.size with hp | hp
    · have hrun := hnullable.set none hs hp
      unfold Act.outcome at hdone
      rw [hrun] at hdone
      obtain rfl : store s p none = t := congrArg Prod.snd hdone
      unfold Act.outcome
      rw [hraw.get (hnullable.keep none hs hp) (hsize ▸ hp), herase hs (hsize ▸ hp)]
    · have hrun := hnullable.set_error (s := s) (x := none) (Nat.not_lt.2 hp)
      unfold Act.outcome at hdone
      rw [hrun] at hdone
      cases hdone

/-- Storage that is plain on both channels is gapless if no single element is missing. -/
theorem gapless_of_plain (hraw : a.raw.Plain inv item replace)
    (hnullable : a.nullable.Plain inv find store) (hsize : a.nullable.size = a.raw.size)
    (hinv : ∀ {s t}, R s t → inv s ∧ inv t) (hitem : ∀ {s t} p, R s t → some (item s p) = find t p) :
    a.Gapless R := hraw.readsLike hnullable hsize.symm hinv fun hst _ => hitem _ hst

/-- The nullable channel of storage that is plain on both is orderly if a single element that is stored
leaves the others. -/
theorem orderly_of_plain (hraw : a.raw.Plain inv item replace)
    (hnullable : a.nullable.Plain inv find store) (hsize : a.nullable.size = a.raw.size)
    (hinv : ∀ {s t}, R s t → inv s ∧ inv t) (hfind : ∀ {s t} p, R s t → find s p = find t p)
    (hstore : ∀ {s t p} x, R s t → p < a.raw.size → R (store s p x) (store t p x))
    (hframe : ∀ {s p q} x, inv s → p < a.raw.size → q < a.raw.size → q ≠ p →
      item (store s p x) q = item s q) : a.Orderly R where
  stepwise := hnullable.asStepwise hinv (fun hst _ => hfind _ hst)
    fun x hst hp => hstore x hst (hsize ▸ hp)
  frame {s s' t p q x} hs hne hset := by
    have hs := (hinv hs).1
    rcases Nat.lt_or_ge p a.nullable.size with hp | hp
    · have hrun := hnullable.set x hs hp
      unfold Act.outcome at hset ⊢
      rw [hrun] at hset
      obtain rfl : store s p x = t := congrArg Prod.snd hset
      rcases Nat.lt_or_ge q a.raw.size with hq | hq
      · rw [hraw.get (hnullable.keep x hs hp) hq, hraw.get hs hq,
          hframe x hs (hsize ▸ hp) hq (Ne.symm hne)]
      · rw [hraw.get_error (Nat.not_lt.2 hq), hraw.get_error (Nat.not_lt.2 hq)]
    · have hrun := hnullable.set_error (s := s) (x := x) (Nat.not_lt.2 hp)
      unfold Act.outcome at hset
      rw [hrun] at hset
      cases hset

/-! ### States compared by equality -/

/-- Equal states of which an invariant holds. -/
def EqWhere (inv : σ → Prop) (s t : σ) : Prop := s = t ∧ inv s

theorem agrees_of_plain_eq (hraw : a.raw.Plain inv item replace)
    (hnullable : a.nullable.Plain inv find store) (hsize : a.nullable.size = a.raw.size)
    (hitem : ∀ {s} p, inv s → (find s p).getD missing = item s p)
    (hset : ∀ s p x, store s p (some x) = replace s p x)
    (herase : ∀ {s p}, inv s → p < a.raw.size → item (store s p none) p = missing) :
    a.Agrees (EqWhere inv) missing := by
  refine agrees_of_plain hraw hnullable hsize ?_ ?_ ?_ herase
  · rintro s _ ⟨rfl, hs⟩
    exact ⟨hs, hs⟩
  · rintro s _ p ⟨rfl, hs⟩
    exact hitem p hs
  · rintro s _ p x ⟨rfl, hs⟩ hp
    exact ⟨hset s p x, hnullable.keep (some x) hs (hsize ▸ hp)⟩

theorem gapless_of_plain_eq (hraw : a.raw.Plain inv item replace)
    (hnullable : a.nullable.Plain inv find store) (hsize : a.nullable.size = a.raw.size)
    (hitem : ∀ s p, some (item s p) = find s p) : a.Gapless (EqWhere inv) := by
  refine gapless_of_plain hraw hnullable hsize ?_ ?_
  · rintro s _ ⟨rfl, hs⟩
    exact ⟨hs, hs⟩
  · rintro s _ p ⟨rfl, -⟩
    exact hitem s p

theorem orderly_of_plain_eq (hraw : a.raw.Plain inv item replace)
    (hnullable : a.nullable.Plain inv find store) (hsize : a.nullable.size = a.raw.size)
    (hframe : ∀ {s p q} x, inv s → p < a.raw.size → q < a.raw.size → q ≠ p →
      item (store s p x) q = item s q) : a.Orderly (EqWhere inv) := by
  refine orderly_of_plain hraw hnullable hsize ?_ ?_ ?_ hframe
  · rintro s _ ⟨rfl, hs⟩
    exact ⟨hs, hs⟩
  · rintro s _ p ⟨rfl, -⟩
    rfl
  · rintro s _ p x ⟨rfl, hs⟩ hp
    exact ⟨rfl, hnullable.keep x hs (hsize ▸ hp)⟩

end Access

end Orthotope
