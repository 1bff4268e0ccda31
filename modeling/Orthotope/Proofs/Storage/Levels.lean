import Orthotope.Proofs.View.Compose
import Orthotope.Storage.Ragged

/-!
# The search for a depth

`Nested.depth` goes through the lists of a list and keeps two numbers: the levels of those that tell
them exactly, and the least that all others need. It stops at the first exact depth that is not that of
the ones before, and compares the two numbers at the end.

That comes to what the lists say one by one, put together in pairs (`Depth.meet`, `Nested.depthAll`):
one more list may be put to what is known before the rest is (`Depth.settled_exactly`,
`Depth.settled_atLeast`), and so for all of them (`Nested.settled_depths`, `Nested.depth_lists`).
-/

namespace Orthotope

namespace Depth

/-- One level more. -/
def succ : Depth → Depth
  | exactly n => exactly (n + 1)
  | atLeast n => atLeast (n + 1)

/-- What two lists at the same level say together, unless they contradict each other. -/
def meet : Depth → Depth → Except Error Depth
  | exactly m, exactly n => if m = n then .ok (exactly m) else .error .unevenDepth
  | exactly m, atLeast n => if n ≤ m then .ok (exactly m) else .error .unevenDepth
  | atLeast m, exactly n => if m ≤ n then .ok (exactly n) else .error .unevenDepth
  | atLeast m, atLeast n => .ok (atLeast (max m n))

/-- What is known at the end of a search for the depth of some lists. -/
def settled : Option Nat × Nat → Except Error Depth
  | (some levels, least) => (exactly levels).meet (atLeast least)
  | (none, least) => .ok (atLeast least)

theorem meet_error {a b : Depth} {e : Error} (h : a.meet b = .error e) : e = .unevenDepth := by
  cases a <;> cases b <;> simp only [meet] at h <;> (try split at h) <;> cases h <;> rfl

theorem settled_error {found : Option Nat × Nat} {e : Error} (h : settled found = .error e) :
    e = .unevenDepth := by
  rcases found with ⟨_ | levels, least⟩
  · cases h
  · exact meet_error (a := exactly levels) (b := atLeast least) h

/-- The number of levels that are known. -/
def levels : Depth → Nat
  | exactly n => n
  | atLeast n => n

/-- Two lists that do not contradict each other know as many levels as either, and exactly those that
one of them knows exactly. -/
theorem meet_eq_ok {a b d : Depth} (h : a.meet b = .ok d) : d.levels = max a.levels b.levels ∧
    ∀ n, a = exactly n ∨ b = exactly n → d = exactly n := by
  cases a <;> cases b <;> simp only [meet] at h <;> (try split at h) <;> cases h <;>
    simp only [levels] <;> grind

/-- A list that tells its depth is put to what is known before those after it are. -/
theorem settled_exactly (known : Option Nat) (least levels : Nat) {others : Except Error Depth}
    (hothers : ∀ e, others = .error e → e = .unevenDepth) :
    (do (← settled (known, least)).meet (← (do (exactly levels).meet (← others)))) =
      if known.any (· ≠ levels) then .error .unevenDepth
      else (do (← settled (some levels, least)).meet (← others)) := by
  rcases others with e | d
  · obtain rfl := hothers e rfl
    cases known <;> simp [settled, meet, bind, Except.bind] <;> grind
  · cases known <;> cases d <;> simp [settled, meet, bind, Except.bind] <;> grind

/-- A list that only needs some levels is put to what is known before those after it are. -/
theorem settled_atLeast (known : Option Nat) (least levels : Nat) {others : Except Error Depth}
    (hothers : ∀ e, others = .error e → e = .unevenDepth) :
    (do (← settled (known, least)).meet (← (do (atLeast levels).meet (← others)))) =
      (do (← settled (known, max least levels)).meet (← others)) := by
  rcases others with e | d
  · obtain rfl := hothers e rfl
    cases known
    · rfl
    · simp [settled, meet, bind, Except.bind]
      grind
  · cases known <;> cases d <;> simp [settled, meet, bind, Except.bind] <;> grind

end Depth

namespace Nested

variable {α : Type}

/-- To prove something of all nested lists, prove it of those that have it in all of their lists. -/
theorem induct {motive : Nested α → Prop} (values : ∀ xs, motive (values xs))
    (lists : ∀ ts, (∀ t ∈ ts, motive t) → motive (lists ts)) (t : Nested α) : motive t := by
  refine @Nested.rec α motive (fun ts => ∀ t ∈ ts, motive t) values lists ?_ ?_ t
  · exact fun _ h => absurd h List.not_mem_nil
  · exact fun t ts ht hts => List.forall_mem_cons.2 ⟨ht, hts⟩

/-- What some lists say together of the number of their levels. -/
def depthAll : List (Nested α) → Except Error Depth
  | [] => .ok (.atLeast 0)
  | t :: ts => do (← t.depth).meet (← depthAll ts)

theorem depth_eq (ts : List (Nested α)) :
    (lists ts).depth = (do return (← depths none 0 ts >>= Depth.settled).succ) := by
  rw [depth]
  rcases depths none 0 ts with e | ⟨_ | levels, least⟩
  · rfl
  · rfl
  · show (if levels < least then _ else _) = (if least ≤ levels then _ else _) >>= _
    by_cases hlt : levels < least
    · rw [if_pos hlt, if_neg (Nat.not_le.2 hlt)]
      rfl
    · rw [if_neg hlt, if_pos (Nat.not_lt.1 hlt)]
      rfl

theorem depthAll_error {ts : List (Nested α)}
    (h : ∀ t ∈ ts, ∀ e, t.depth = .error e → e = .unevenDepth) {e : Error}
    (he : depthAll ts = .error e) : e = .unevenDepth := by
  induction ts with
  | nil => cases he
  | cons t ts ih =>
    obtain ⟨ht, hts⟩ := List.forall_mem_cons.1 h
    rw [depthAll] at he
    rcases hfirst : t.depth with e' | d
    · rw [hfirst] at he
      cases he
      exact ht _ hfirst
    rcases hothers : depthAll ts with e' | d'
    · rw [hfirst, hothers] at he
      cases he
      exact ih hts hothers
    · rw [hfirst, hothers] at he
      exact Depth.meet_error he

/-- Going through some lists comes to what each of them says, put together. -/
theorem settled_depths {ts : List (Nested α)} (h : ∀ t ∈ ts, ∀ e, t.depth = .error e → e = .unevenDepth)
    (known : Option Nat) (least : Nat) : (depths known least ts >>= Depth.settled) =
      (do (← Depth.settled (known, least)).meet (← depthAll ts)) := by
  induction ts generalizing known least with
  | nil =>
    show Depth.settled (known, least) = _
    cases known <;> simp [Depth.settled, Depth.meet, depthAll, bind, Except.bind]
    split <;> simp
  | cons t ts ih =>
    obtain ⟨ht, hts⟩ := List.forall_mem_cons.1 h
    have hothers : ∀ e, depthAll ts = .error e → e = .unevenDepth := fun e => depthAll_error hts
    rw [depths, depthAll]
    rcases hfirst : t.depth with e | d
    · obtain rfl := ht _ hfirst
      rcases hknown : Depth.settled (known, least) with e | d
      · obtain rfl := Depth.settled_error hknown
        rfl
      · rfl
    cases d with
    | exactly levels =>
      refine Eq.trans ?_ (Depth.settled_exactly known least levels hothers).symm
      by_cases huneven : known.any (· ≠ levels) = true
      · rw [if_pos huneven]
        show ((if known.any (· ≠ levels) = true then _ else _) >>= Depth.settled) = _
        rw [if_pos huneven]
        rfl
      · rw [if_neg huneven, ← ih hts]
        show ((if known.any (· ≠ levels) = true then _ else _) >>= Depth.settled) = _
        rw [if_neg huneven]
    | atLeast levels =>
      exact (ih hts known (max least levels)).trans (Depth.settled_atLeast known least levels hothers).symm

theorem depth_lists_of_errors {ts : List (Nested α)}
    (h : ∀ t ∈ ts, ∀ e, t.depth = .error e → e = .unevenDepth) :
    (lists ts).depth = (do return (← depthAll ts).succ) := by
  rw [depth_eq, settled_depths h]
  rcases depthAll ts with e | d
  · rfl
  · cases d <;> simp [Depth.settled, Depth.meet, bind, Except.bind]

/-- Looking for the depth of nested lists fails for one reason only. -/
theorem depth_error (t : Nested α) {e : Error} (h : t.depth = .error e) : e = .unevenDepth := by
  induction t using induct generalizing e with
  | values xs => cases h
  | lists ts ih =>
    have herrors : ∀ t ∈ ts, ∀ e, t.depth = .error e → e = .unevenDepth := fun t ht e => ih t ht
    rw [depth_lists_of_errors herrors] at h
    rcases hall : depthAll ts with e' | d
    · rw [hall] at h
      cases h
      exact depthAll_error herrors hall
    · rw [hall] at h
      cases h

/-- The depth of a list is one more than its lists say together. -/
theorem depth_lists (ts : List (Nested α)) : (lists ts).depth = (do return (← depthAll ts).succ) :=
  depth_lists_of_errors fun t _ _ => t.depth_error

end Nested

end Orthotope
