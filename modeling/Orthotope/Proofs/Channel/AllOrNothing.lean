import Orthotope.Content
import Orthotope.Proofs.Channel.Keeps
import Orthotope.Proofs.Channel.Layers

/-!
# Writes that fail before they begin

A write that is checked before it begins can fail without a trace, if nothing fails after the check. An
act `Act.Heeds` a check if it fails where the check does, leaving the state alone, and runs to its end
(`Act.Meets`) where the check passes. The states are those of an invariant `I`. If `fails` holds, an act
may also fail after its check has passed; that is for storage that may only be read, and of which `I`
names one state.

A channel whose requests heed the checks of their positions is `Channel.WritesInRange`, and a channel
of which every bulk read in range is complete `Channel.ReadsInRange`. Both pass through views that fit
and through conversions, since no request in range leads to one beneath that is not. Filling and copying
then run to their ends as well (`Channel.WritesInRange.fill`, `Channel.WritesInRange.copyFrom`).
-/

namespace Orthotope

variable {σ α β : Type} {I J : σ → Prop} {fails : Prop}

namespace Act

/-- From a state of `I`, an act leaves such a state, and it gives an answer of which `P` holds, or it
fails. That it does only if `fails` holds. -/
def Meets (I : σ → Prop) (fails : Prop) (P : α → Prop) (a : Act σ α) : Prop :=
  ∀ s, I s → (∃ x t, a.outcome s = (.ok x, t) ∧ P x ∧ I t) ∨
    (fails ∧ ∃ e t, a.outcome s = (.error e, t) ∧ I t)

variable {P : α → Prop} {a b : Act σ α} {check : Except Error Unit}

namespace Meets

/-- Only outcomes matter. -/
theorem congr (h : a.Meets I fails P) (hab : b.outcome = a.outcome) : b.Meets I fails P := by
  unfold Meets
  rw [hab]
  exact h

protected theorem pure {x : α} (hx : P x) : (pure x : Act σ α).Meets I fails P :=
  fun s hs => .inl ⟨x, s, rfl, hx, hs⟩

/-- A sequence runs to its end if its parts do. -/
protected theorem bind {Q : β → Prop} {f : α → Act σ β} (h : a.Meets I fails P)
    (hf : ∀ x, P x → (f x).Meets I fails Q) : (a >>= f).Meets I fails Q := by
  intro s hs
  rw [outcome_bind]
  rcases h s hs with ⟨x, t, ha, hx, ht⟩ | ⟨hfails, e, t, ha, ht⟩
  · rw [ha]
    exact hf x hx t ht
  · rw [ha]
    exact .inr ⟨hfails, e, t, rfl, ht⟩

/-- What leaves each state alone leaves an invariant. -/
theorem of_still (h : ∀ s, I s → a.Meets (· = s) False P) : a.Meets I fails P := by
  intro s hs
  rcases h s hs s rfl with ⟨x, t, ha, hx, rfl⟩ | ⟨hfalse, -⟩
  · exact .inl ⟨x, t, ha, hx, hs⟩
  · exact hfalse.elim

/-- What keeps another invariant keeps both. -/
theorem and (h : a.Meets I fails P) (hkeeps : ∀ s, J s → J (a.outcome s).2) :
    a.Meets (fun s => I s ∧ J s) fails P := by
  rintro s ⟨hs, hJ⟩
  have hkept := hkeeps s hJ
  rcases h s hs with ⟨x, t, ha, hx, ht⟩ | ⟨hfails, e, t, ha, ht⟩
  · rw [ha] at hkept
    exact .inl ⟨x, t, ha, hx, ht, hkept⟩
  · rw [ha] at hkept
    exact .inr ⟨hfails, e, t, ha, ht, hkept⟩

end Meets

/-- An act fails where a check does, and leaves the state alone there. Where the check passes it runs to
its end. -/
structure Heeds (I : σ → Prop) (fails : Prop) (check : Except Error Unit) (a : Act σ Unit) : Prop where
  refuses : ∀ {s e}, I s → check = .error e → a.outcome s = (.error e, s)
  meets : check = .ok () → a.Meets I fails fun _ => True

namespace Heeds

variable {a : Act σ Unit}

/-- A check, and then what it lets pass. -/
theorem checked {body : Act σ Unit} (h : check = .ok () → body.Meets I fails fun _ => True) :
    (do
      Act.ofExcept check
      body).Heeds I fails check where
  refuses := by
    rintro s e - rfl
    rfl
  meets := by
    intro hcheck
    rw [hcheck]
    exact h hcheck

theorem and (h : a.Heeds I fails check) (hkeeps : ∀ s, J s → J (a.outcome s).2) :
    a.Heeds (fun s => I s ∧ J s) fails check :=
  ⟨fun hs => h.refuses hs.1, fun hcheck => (h.meets hcheck).and hkeeps⟩

/-- What may not fail after its check fails just if the check does. -/
theorem value (h : a.Heeds I fails check) {s : σ} (hs : I s) (hfails : ¬ fails) :
    (a.outcome s).1 = check := by
  rcases hcheck : check with e | ⟨⟩
  · rw [h.refuses hs hcheck]
  · rcases h.meets hcheck s hs with ⟨x, t, ha, -⟩ | ⟨hfail, -⟩
    · rw [ha]
    · exact absurd hfail hfails

/-- What fails leaves the state alone, if what may fail after its check has no other state to leave. -/
theorem unchanged (h : a.Heeds I fails check) {s : σ} (hs : I s)
    (hstill : fails → ∀ t, I t → t = s) {e : Error} (ha : (a.outcome s).1 = .error e) :
    (a.outcome s).2 = s := by
  rcases hcheck : check with e | ⟨⟩
  · rw [h.refuses hs hcheck]
  · rcases h.meets hcheck s hs with ⟨x, t, hdone, -⟩ | ⟨hfails, e, t, hdone, ht⟩
    · rw [hdone] at ha
      cases ha
    · rw [hdone]
      exact hstill hfails t ht

/-- An act leaves the state alone if there is no other for it to leave. -/
theorem still (h : a.Heeds I fails check) {s : σ} (hs : I s) (hstill : ∀ t, I t → t = s) :
    (a.outcome s).2 = s := by
  rcases hcheck : check with e | ⟨⟩
  · rw [h.refuses hs hcheck]
  · rcases h.meets hcheck s hs with ⟨x, t, hdone, -, ht⟩ | ⟨-, e, t, hdone, ht⟩
    · rw [hdone]
      exact hstill t ht
    · rw [hdone]
      exact hstill t ht

end Heeds

end Act

namespace Channel

/-- At the states of `I`, a bulk read in range is complete and leaves the state alone. -/
def ReadsInRange (I : σ → Prop) (c : Channel σ α) : Prop :=
  ∀ s, I s → ∀ p n, p + n ≤ c.size →
    (c.readSpan ⟨p, n⟩).Meets (· = s) False fun xs => xs.length = n

/-- From the states of `I`, writes heed the checks of the positions they are for. -/
structure WritesInRange (I : σ → Prop) (fails : Prop) (c : Channel σ α) : Prop where
  set : ∀ p x, (c.set p x).Heeds I fails (checkPos c.size p)
  write : ∀ p xs, (c.write p xs).Heeds I fails (checkRange c.size p xs.length)

theorem le_of_checkRange {size p n : Nat} (h : checkRange size p n = .ok ()) : p + n ≤ size := by
  unfold checkRange at h
  split at h
  · assumption
  · cases h

theorem lt_of_checkPos {size p : Nat} (h : checkPos size p = .ok ()) : p < size := by
  unfold checkPos at h
  split at h
  · assumption
  · cases h

/-- A bulk read that is guarded by its range comes to its body if it is in range. -/
theorem outcome_readSpan_of_le (c : Channel σ α) {p n : Nat} {body : Effect σ (Transfer α)}
    (hread : c.read p n = readWithin c.size p n body) (hle : p + n ≤ c.size) :
    (c.readSpan ⟨p, n⟩).outcome = (Act.complete body).outcome := by
  rw [readSpan_eq, hread, complete_readWithin, checkRange, if_pos hle]
  rfl

variable {c : Channel σ α}

theorem WritesInRange.set_meets (h : c.WritesInRange I fails) {p : Nat} (x : α) (hp : p < c.size) :
    (c.set p x).Meets I fails fun _ => True := (h.set p x).meets (if_pos hp)

theorem WritesInRange.write_meets (h : c.WritesInRange I fails) {p : Nat} {xs : List α}
    (hle : p + xs.length ≤ c.size) : (c.write p xs).Meets I fails fun _ => True :=
  (h.write p xs).meets (if_pos hle)

/-- Writes that keep another invariant keep both. -/
theorem WritesInRange.and (h : c.WritesInRange I fails) (hkeeps : c.Keeps J) :
    c.WritesInRange (fun s => I s ∧ J s) fails :=
  ⟨fun p x => (h.set p x).and fun _ hs => hkeeps.set hs p x,
    fun p xs => (h.write p xs).and fun _ hs => hkeeps.write hs p xs⟩

theorem ReadsInRange.and (h : c.ReadsInRange J) : c.ReadsInRange fun s => I s ∧ J s :=
  fun s hs => h s hs.2

/-! ## Plain channels -/

section
variable {item : σ → Nat → α} {replace : σ → Nat → α → σ}

theorem Plain.readsInRange (h : c.Plain I item replace) : c.ReadsInRange I := by
  rintro _ hs p n hle s rfl
  refine .inl ⟨(List.range' p n).map (item s), s, ?_, by simp, rfl⟩
  rw [readSpan_eq]
  show (Transfer.whole ((c.read p n).run s).value, ((c.read p n).run s).state) = _
  rw [h.read hs hle]
  rfl

theorem Plain.writesInRange (h : c.Plain I item replace) : c.WritesInRange I fails where
  set p x := by
    rcases Nat.lt_or_ge p c.size with hp | hp
    · refine ⟨fun _ hcheck => ?_,
        fun _ s hs => .inl ⟨(), replace s p x, ?_, trivial, h.keep x hs hp⟩⟩
      · rw [checkPos, if_pos hp] at hcheck
        cases hcheck
      · rw [Act.outcome, h.set x hs hp]
    · refine ⟨fun _ hcheck => ?_,
        fun hcheck => absurd (lt_of_checkPos hcheck) (Nat.not_lt.2 hp)⟩
      rw [checkPos, if_neg (Nat.not_lt.2 hp)] at hcheck
      rw [Act.outcome, h.set_error (Nat.not_lt.2 hp)]
      exact Prod.ext hcheck rfl
  write p xs := by
    rcases Nat.lt_or_ge c.size (p + xs.length) with hlt | hle
    · refine ⟨fun _ hcheck => ?_,
        fun hcheck => absurd (le_of_checkRange hcheck) (Nat.not_le.2 hlt)⟩
      rw [checkRange, if_neg (Nat.not_le.2 hlt)] at hcheck
      rw [Act.outcome, h.write_error (Nat.not_le.2 hlt)]
      exact Prod.ext hcheck rfl
    · refine ⟨fun _ hcheck => ?_,
        fun _ s hs => .inl ⟨(), replaceEach replace s p xs, ?_, trivial, h.keepEach hs hle⟩⟩
      · rw [checkRange, if_pos hle] at hcheck
        cases hcheck
      · rw [Act.outcome, h.write hs hle]

end

/-! ## Missing elements and single steps -/

theorem WritesInRange.orNull (h : c.WritesInRange I fails) (null : α) :
    (c.orNull null).WritesInRange I fails where
  set p x := h.set p (x.getD null)
  write p xs := by
    have hwrite := h.write p (xs.map (·.getD null))
    rwa [List.length_map] at hwrite

/-- One element after the other is written to its end. -/
theorem WritesInRange.writeEach (h : c.WritesInRange I fails) {p : Nat} {xs : List α}
    (hle : p + xs.length ≤ c.size) : (c.writeEach p xs).Meets I fails fun _ => True := by
  induction xs generalizing p with
  | nil => exact .pure trivial
  | cons x xs ih =>
    rw [List.length_cons] at hle
    exact (h.set_meets x (by omega)).bind fun _ _ => ih (by omega)

theorem WritesInRange.stepwise (h : c.WritesInRange I fails) : c.stepwise.WritesInRange I fails where
  set := h.set
  write _ _ := .checked fun hcheck => h.writeEach (le_of_checkRange hcheck)

/-! ## Views -/

section
variable {v : View} {logged : Bool}

theorem ReadsInRange.readRuns (h : c.ReadsInRange I) {s : σ} (hs : I s) {runs : List View.Run}
    (hruns : ∀ r ∈ runs, r.inner + r.span.length ≤ c.size) :
    (Act.complete (c.readRuns runs)).Meets (· = s) False fun xs =>
      xs.length = Span.total (runs.map (·.span)) := by
  induction runs with
  | nil => exact .pure rfl
  | cons r rest ih =>
    obtain ⟨hr, hrest⟩ := List.forall_mem_cons.1 hruns
    rw [complete_readRuns_cons]
    refine (h s hs _ _ hr).bind fun xs hxs => (ih hrest).bind fun ys hys => .pure ?_
    rw [List.length_append, hxs, hys, List.map_cons, Span.total]

/-- A view that fits reads in range if the channel beneath does. -/
theorem ReadsInRange.through (h : c.ReadsInRange I) (hv : v.Fits) (hsize : c.size = sizeOf v.source) :
    (c.through v logged).ReadsInRange I := by
  intro s hs p n hle
  have hruns : ∀ r ∈ v.runs p n, r.inner + r.span.length ≤ c.size := fun r hr =>
    hsize ▸ hv.le_of_mem_runs hr hle
  have hread := h.readRuns hs hruns
  rw [v.total_runs] at hread
  refine hread.congr ?_
  rw [(c.through v logged).outcome_readSpan_of_le rfl hle]
  exact outcome_complete_note ..

theorem WritesInRange.writeRuns (h : c.WritesInRange I fails) {runs : List View.Run}
    (hruns : ∀ r ∈ runs, r.inner + r.span.length ≤ c.size) (xs : List α) :
    (c.writeRuns runs xs).Meets I fails fun _ => True := by
  induction runs generalizing xs with
  | nil => exact .pure trivial
  | cons r rest ih =>
    obtain ⟨hr, hrest⟩ := List.forall_mem_cons.1 hruns
    have hle : r.inner + (xs.take r.span.length).length ≤ c.size := by
      rw [List.length_take]
      omega
    exact (h.write_meets hle).bind fun _ _ => ih hrest _

/-- A view that fits heeds its checks if the channel beneath does: no position of the view leads to one
that is out of range beneath. -/
theorem WritesInRange.through (h : c.WritesInRange I fails) (hv : v.Fits)
    (hsize : c.size = sizeOf v.source) : (c.through v logged).WritesInRange I fails where
  set p x := .checked fun hcheck => by
    have hp : v.position p < c.size := hsize ▸ hv.position_lt (lt_of_checkPos hcheck)
    exact h.set_meets x hp
  write p xs := .checked fun hcheck => by
    have hruns : ∀ r ∈ v.runs p xs.length, r.inner + r.span.length ≤ c.size := fun r hr =>
      hsize ▸ hv.le_of_mem_runs hr (le_of_checkRange hcheck)
    exact (h.writeRuns hruns xs).congr (outcome_note ..)

end

/-! ## Conversions -/

section
variable {c : Channel σ β} {into : β → α} {back : α → β} {log : Nat → Nat → List Event}

theorem ReadsInRange.readBlocks (h : c.ReadsInRange I) (into : β → α) {s : σ} (hs : I s)
    {spans : List Span} (hspans : ∀ b ∈ spans, b.start + b.length ≤ c.size) :
    (Act.complete (c.readBlocks into spans)).Meets (· = s) False fun xs =>
      xs.length = Span.total spans := by
  induction spans with
  | nil => exact .pure rfl
  | cons b rest ih =>
    obtain ⟨hb, hrest⟩ := List.forall_mem_cons.1 hspans
    rw [complete_readBlocks_cons]
    refine (h s hs _ _ hb).bind fun xs hxs => (ih hrest).bind fun ys hys => .pure ?_
    rw [List.length_append, List.length_map, hxs, hys, Span.total]

/-- A conversion reads in range if the channel beneath does. -/
theorem ReadsInRange.convert (h : c.ReadsInRange I) : (c.convert into back log).ReadsInRange I := by
  intro s hs p n (hle : p + n ≤ c.size)
  have hblocks : ∀ b ∈ blocks p n, b.start + b.length ≤ c.size := fun b hb =>
    Nat.le_trans (le_of_mem_walk hb) hle
  have hread := h.readBlocks into hs hblocks
  rw [blocks, total_walk] at hread
  refine hread.congr ?_
  rw [(c.convert into back log).outcome_readSpan_of_le rfl hle]
  exact outcome_complete_notes ..

theorem WritesInRange.writeBlocks (h : c.WritesInRange I fails) {spans : List Span}
    (hspans : ∀ b ∈ spans, b.start + b.length ≤ c.size) (xs : List α) :
    (c.writeBlocks back spans xs).Meets I fails fun _ => True := by
  induction spans generalizing xs with
  | nil => exact .pure trivial
  | cons b rest ih =>
    obtain ⟨hb, hrest⟩ := List.forall_mem_cons.1 hspans
    have hle : b.start + ((xs.take b.length).map back).length ≤ c.size := by
      rw [List.length_map, List.length_take]
      omega
    exact (h.write_meets hle).bind fun _ _ => ih hrest _

/-- A conversion heeds its checks if the channel beneath does. -/
theorem WritesInRange.convert (h : c.WritesInRange I fails) :
    (c.convert into back log).WritesInRange I fails where
  set p x := h.set p (back x)
  write p xs := .checked fun hcheck => by
    have hblocks : ∀ b ∈ blocks p xs.length, b.start + b.length ≤ c.size := fun b hb =>
      Nat.le_trans (le_of_mem_walk hb) (le_of_checkRange hcheck)
    exact h.writeBlocks hblocks xs

end

/-! ## Whole contents -/

/-- Filling runs to its end. -/
theorem WritesInRange.fill (h : c.WritesInRange I fails) (x : α) :
    (c.fill x).Meets I fails fun _ => True := by
  have hspans : ∀ spans : List Span, (∀ b ∈ spans, b.start + b.length ≤ c.size) →
      (spans.forM fun b => c.write b.start (List.replicate b.length x)).Meets I fails
        fun _ => True := by
    intro spans
    induction spans with
    | nil => exact fun _ => .pure trivial
    | cons b rest ih =>
      intro hall
      obtain ⟨hb, hrest⟩ := List.forall_mem_cons.1 hall
      have hle : b.start + (List.replicate b.length x).length ≤ c.size := by
        rwa [List.length_replicate]
      exact (h.write_meets hle).bind fun _ _ => ih hrest
  exact hspans _ fun b hb => Nat.zero_add c.size ▸ le_of_mem_walk hb

/-- Copying runs to its end if the source can be read and is no larger. -/
theorem WritesInRange.copyFrom (h : c.WritesInRange I fails) {source : Channel σ α}
    (hsource : source.ReadsInRange I) (hsize : source.size ≤ c.size) :
    (c.copyFrom source).Meets I fails fun _ => True := by
  -- After each span, what is left of the source fits behind the position that was reached.
  have hspans : ∀ (spans : List Span) (pos : Nat), (∀ b ∈ spans, b.start + b.length ≤ source.size) →
      pos + Span.total spans ≤ c.size →
      (spans.foldlM (fun pos b => do
        let xs ← source.readSpan b
        c.write pos xs
        return pos + xs.length) pos).Meets I fails fun _ => True := by
    intro spans
    induction spans with
    | nil => exact fun pos _ _ => .pure trivial
    | cons b rest ih =>
      intro pos hall hle
      obtain ⟨hb, hrest⟩ := List.forall_mem_cons.1 hall
      rw [Span.total] at hle
      rw [List.foldlM_cons]
      refine Act.Meets.bind (P := fun next => next = pos + b.length) ?_ fun next hnext => ?_
      · refine (Act.Meets.of_still fun s hs => hsource s hs _ _ hb).bind fun xs hxs => ?_
        have hwrite : pos + xs.length ≤ c.size := by omega
        exact (h.write_meets hwrite).bind fun _ _ => .pure (by rw [hxs])
      · subst hnext
        exact ih _ hrest (by omega)
  have hall : ∀ b ∈ blocks 0 source.size, b.start + b.length ≤ source.size := fun b hb =>
    Nat.zero_add source.size ▸ le_of_mem_walk hb
  have htotal : 0 + Span.total (blocks 0 source.size) ≤ c.size := by
    rwa [blocks, total_walk, Nat.zero_add]
  exact (hspans _ 0 hall htotal).bind fun _ _ => .pure trivial

end Channel

/-! ## Both channels of a cube -/

namespace Access

/-- From the states of `I`, writes to either channel heed the checks of the positions they are for. -/
structure WritesInRange (I : σ → Prop) (fails : Prop) (a : Access σ α) : Prop where
  raw : a.raw.WritesInRange I fails
  nullable : a.nullable.WritesInRange I fails

variable {a : Access σ α}

theorem WritesInRange.through (h : a.WritesInRange I fails) {v : View} (hv : v.Fits)
    (hraw : a.raw.size = sizeOf v.source) (hnullable : a.nullable.size = sizeOf v.source) :
    (a.through v).WritesInRange I fails :=
  ⟨h.raw.through hv hraw, h.nullable.through hv hnullable⟩

theorem WritesInRange.convert {source : Kind} {a : Access σ source.Elem}
    (h : a.WritesInRange I fails) (target : Kind) : (a.convert target).WritesInRange I fails :=
  ⟨h.raw.convert, h.nullable.convert⟩

end Access

end Orthotope
