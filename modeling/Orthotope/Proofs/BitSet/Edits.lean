import Mathlib.Logic.Function.Basic
import Orthotope.Proofs.BitSet.Positions

/-!
# Bit sets after edits

A set is made in one of four ways (`BitSet.Source`) and changed one position at a time
(`BitSet.Edit`). What it should hold then is said without words and bits: a position is marked as the
last edit of it says, or else as the set was made (`BitSet.leaves`).

One edit keeps a set canonical and changes one mark (`BitSet.Represents.edit`), so by induction on the
edits the set that is left is canonical and holds what it should (`BitSet.Represents.editAll`), and a
canonical set answers every question as a set of positions does (`BitSet.Canonical.represents`).
-/

namespace Orthotope.BitSet

variable {s t : BitSet} {n : Nat} {marked : Nat → Bool}

/-- The ways to make a bit set. -/
inductive Source where
  /-- The set over no position at all. -/
  | initial
  /-- No position is marked. -/
  | empty (size : Nat)
  /-- Every position is marked. -/
  | full (size : Nat)
  /-- The positions of the true entries are marked. -/
  | ofBools (bs : List Bool)

namespace Source

/-- Makes the set. -/
def make : Source → BitSet
  | initial => default
  | empty size => BitSet.empty size
  | full size => BitSet.full size
  | ofBools bs => BitSet.ofBools bs

/-- The number of positions. -/
def size : Source → Nat
  | initial => 0
  | empty size => size
  | full size => size
  | ofBools bs => bs.length

/-- Whether a position below the size is marked at first. -/
def marks : Source → Nat → Bool
  | initial, _ => false
  | empty _, _ => false
  | full _, _ => true
  | ofBools bs, p => bs.getD p false

end Source

/-- The changes of one mark. -/
inductive Edit where
  | insert (p : Nat)
  | erase (p : Nat)
  | assign (p : Nat) (marked : Bool)

namespace Edit

/-- The position whose mark is changed. -/
def pos : Edit → Nat
  | insert p => p
  | erase p => p
  | assign p _ => p

/-- Whether the position is marked afterwards. -/
def value : Edit → Bool
  | insert _ => true
  | erase _ => false
  | assign _ marked => marked

/-- Does the edit. -/
def run (s : BitSet) : Edit → Except Error BitSet
  | insert p => s.insert p
  | erase p => s.erase p
  | assign p marked => s.assign p marked

theorem run_eq (s : BitSet) (e : Edit) : e.run s = s.assign e.pos e.value := by
  cases e <;> rfl

end Edit

/-- Does one edit after the other. -/
def editAll (s : BitSet) (edits : List Edit) : Except Error BitSet :=
  edits.foldlM (fun s e => e.run s) s

/-- The marks that edits leave: the last edit of a position decides. -/
def leaves (marked : Nat → Bool) (edits : List Edit) (p : Nat) : Bool :=
  ((edits.reverse.find? fun e => decide (e.pos = p)).map Edit.value).getD (marked p)

/-- An edit decides its position for those before it only. -/
theorem leaves_cons (marked : Nat → Bool) (e : Edit) (edits : List Edit) :
    leaves marked (e :: edits) = leaves (Function.update marked e.pos e.value) edits := by
  funext p
  unfold leaves
  rw [List.reverse_cons, List.find?_append]
  cases edits.reverse.find? fun e => decide (e.pos = p) with
  | none =>
    by_cases hp : e.pos = p
    · subst hp
      simp
    · simp [hp, Ne.symm hp]
  | some later => simp

/-! ## Sets that hold given marks -/

/-- A canonical set over `n` positions that marks those where `marked` holds. -/
structure Represents (s : BitSet) (n : Nat) (marked : Nat → Bool) : Prop where
  canonical : s.Canonical
  size_eq : s.size = n
  mem_eq : ∀ p < n, s.mem p = marked p

theorem ofBools_eq (bs : List Bool) : ofBools bs =
    bs.zipIdx.foldl (fun s e => if e.1 then s.mark e.2 true else s) (BitSet.empty bs.length) := rfl

/-- Marking the positions of the true entries, from position `i` on, adds just those. -/
theorem Represents.markAll (h : s.Represents n marked) (bs : List Bool) (i : Nat) :
    ((bs.zipIdx i).foldl (fun s e => if e.1 then s.mark e.2 true else s) s).Represents n
      fun p => marked p || decide (i ≤ p) && bs.getD (p - i) false := by
  induction bs generalizing s i marked with
  | nil => exact ⟨h.canonical, h.size_eq, fun p hp => by simp [h.mem_eq p hp]⟩
  | cons b bs ih =>
    have hstep : (if b then s.mark i true else s).Represents n
        fun p => marked p || decide (p = i) && b := by
      cases b with
      | false => exact ⟨h.canonical, h.size_eq, fun p hp => by simp [h.mem_eq p hp]⟩
      | true =>
        refine ⟨h.canonical.mark i true, by rw [if_pos rfl, size_mark, h.size_eq], fun p hp => ?_⟩
        rw [if_pos rfl, h.canonical.mem_mark, h.mem_eq p hp, h.size_eq]
        by_cases hpi : p = i
        · subst hpi
          simp [hp]
        · simp [hpi]
    rw [List.zipIdx_cons, List.foldl_cons]
    have hall := ih hstep (i + 1)
    refine ⟨hall.canonical, hall.size_eq, fun p hp => ?_⟩
    rw [hall.mem_eq p hp]
    rcases Nat.lt_trichotomy p i with hlt | rfl | hgt
    · simp [show ¬ p = i by omega, show ¬ i + 1 ≤ p by omega, show ¬ i ≤ p by omega]
    · rw [decide_eq_false (Nat.not_succ_le_self p)]
      simp
    · rw [show p - i = p - (i + 1) + 1 by omega, List.getD_cons_succ]
      simp [show ¬ p = i by omega, show i + 1 ≤ p by omega, show i ≤ p by omega]

/-- Every way to make a set gives the marks that it names. -/
theorem Source.represents (source : Source) :
    source.make.Represents source.size source.marks := by
  cases source with
  | initial => exact ⟨canonical_empty 0, rfl, fun p _ => mem_empty 0 p⟩
  | empty size => exact ⟨canonical_empty size, rfl, fun p _ => mem_empty size p⟩
  | full size =>
    refine ⟨canonical_full size, size_full size, fun p hp => ?_⟩
    rw [Source.make, mem_full]
    exact decide_eq_true hp
  | ofBools bs =>
    have hempty : (BitSet.empty bs.length).Represents bs.length fun _ => false :=
      ⟨canonical_empty _, rfl, fun p _ => mem_empty _ p⟩
    have hall := hempty.markAll bs 0
    rw [← ofBools_eq] at hall
    refine ⟨hall.canonical, hall.size_eq, fun p hp => ?_⟩
    rw [Source.make, hall.mem_eq p hp]
    simp [Source.marks]

/-- An edit below the size succeeds, and changes the mark of its position only. -/
theorem Represents.edit (h : s.Represents n marked) {e : Edit} (he : e.pos < n) :
    ∃ t, e.run s = .ok t ∧ t.Represents n (Function.update marked e.pos e.value) := by
  have hpos : e.pos < s.size := h.size_eq ▸ he
  refine ⟨s.mark e.pos e.value, ?_, h.canonical.mark _ _, by rw [size_mark, h.size_eq],
    fun p hp => ?_⟩
  · rw [Edit.run_eq, BitSet.assign, if_pos hpos]
  · rw [h.canonical.mem_mark, h.mem_eq p hp, Function.update_apply]
    simp [hpos]

/-- Edits below the size succeed, and leave the marks that they should. -/
theorem Represents.editAll (h : s.Represents n marked) {edits : List Edit}
    (hedits : ∀ e ∈ edits, e.pos < n) :
    ∃ t, s.editAll edits = .ok t ∧ t.Represents n (leaves marked edits) := by
  induction edits generalizing s marked with
  | nil => exact ⟨s, rfl, h⟩
  | cons e edits ih =>
    obtain ⟨t, ht, hedit⟩ := h.edit (hedits e List.mem_cons_self)
    obtain ⟨u, hu, hall⟩ := ih hedit fun e he => hedits e (List.mem_cons_of_mem _ he)
    refine ⟨u, ?_, leaves_cons marked e edits ▸ hall⟩
    rw [BitSet.editAll, List.foldlM_cons, ht]
    exact hu

/-! ## What a set answers -/

/-- All that a set tells of itself is what the set of the positions below `n` where `marked` holds
would tell. -/
structure Answers (s : BitSet) (n : Nat) (marked : Nat → Bool) : Prop where
  size_eq : s.size = n
  size_words : s.words.size = (n + 63) / 64
  bit_beyond : ∀ p, n ≤ p → s.bit p = false
  mem_iff : ∀ p, s.mem p = true ↔ p < n ∧ marked p = true
  pairwise_positions : s.positions.Pairwise (· < ·)
  mem_positions : ∀ p, p ∈ s.positions ↔ p < n ∧ marked p = true
  count_eq : s.count = (List.range n).countP marked
  isEmpty_iff : s.isEmpty = true ↔ ∀ p < n, marked p = false
  isFull_iff : s.isFull = true ↔ ∀ p < n, marked p = true

theorem Represents.mem_iff (h : s.Represents n marked) (p : Nat) :
    s.mem p = true ↔ p < n ∧ marked p = true := by
  constructor
  · intro hp
    have hlt : p < n := h.size_eq ▸ lt_of_mem hp
    exact ⟨hlt, h.mem_eq p hlt ▸ hp⟩
  · rintro ⟨hlt, hmarked⟩
    rw [h.mem_eq p hlt, hmarked]

theorem Represents.answers (h : s.Represents n marked) : s.Answers n marked := by
  refine ⟨h.size_eq, ?_, ?_, h.mem_iff, BitSet.pairwise_positions s, fun p => ?_, ?_, ?_, ?_⟩
  · rw [h.canonical.size_words, h.size_eq, wordCount]
  · exact h.size_eq ▸ h.canonical.bit_beyond
  · rw [BitSet.mem_positions, ← h.canonical.mem_eq_bit, h.mem_iff]
  · rw [count_eq_length_positions, h.canonical.positions_eq, h.size_eq, ← List.countP_eq_length_filter]
    exact List.countP_congr fun p hp => by rw [h.mem_eq p (List.mem_range.1 hp)]
  · rw [h.canonical.isEmpty_iff]
    constructor
    · intro hclear p hp
      rw [← h.mem_eq p hp, hclear]
    · intro hclear p
      rw [Bool.eq_false_iff, ne_eq, h.mem_iff]
      rintro ⟨hp, hmarked⟩
      simp [hclear p hp] at hmarked
  · rw [h.canonical.isFull_iff, h.size_eq]
    exact forall₂_congr fun p hp => by rw [h.mem_eq p hp]

/-- Sets are equal just if they have the same size and the same marks below it. -/
theorem Represents.eq_iff {n' : Nat} {marked' : Nat → Bool} (h : s.Represents n marked)
    (h' : t.Represents n' marked') :
    s = t ↔ n = n' ∧ ∀ p < n, marked p = marked' p := by
  rw [h.canonical.eq_iff h'.canonical, h.size_eq, h'.size_eq]
  refine and_congr_right ?_
  rintro rfl
  constructor
  · intro hmem p hp
    rw [← h.mem_eq p hp, ← h'.mem_eq p hp, hmem]
  · intro hmarked p
    rw [Bool.eq_iff_iff, h.mem_iff, h'.mem_iff]
    exact and_congr_right fun hp => by rw [hmarked p hp]

/-- A set that is made and then edited below its size is a canonical representation of the positions
that are left marked: it answers as those do, and it equals another such set just if that has the same
size and the same positions left. -/
theorem Source.canonical_editAll (source : Source) {edits : List Edit}
    (hedits : ∀ e ∈ edits, e.pos < source.size) :
    ∃ s, source.make.editAll edits = .ok s ∧
      s.Answers source.size (leaves source.marks edits) ∧
      ∀ (source' : Source) (edits' : List Edit), (∀ e ∈ edits', e.pos < source'.size) →
        ∃ t, source'.make.editAll edits' = .ok t ∧
          (s = t ↔ source.size = source'.size ∧
            ∀ p < source.size, leaves source.marks edits p = leaves source'.marks edits' p) := by
  obtain ⟨s, hs, hrep⟩ := source.represents.editAll hedits
  refine ⟨s, hs, hrep.answers, fun source' edits' hedits' => ?_⟩
  obtain ⟨t, ht, hrep'⟩ := source'.represents.editAll hedits'
  exact ⟨t, ht, hrep.eq_iff hrep'⟩

/-- Two positions in different words are taken from a full set and one of them is put back: one is
missing. -/
theorem Source.canonical_editAll_two_words :
    ∃ s, (Source.full 66).make.editAll [.erase 3, .erase 65, .assign 65 true] = .ok s ∧
      s.words.size = 2 ∧ s.count = 65 ∧ s.mem 3 = false ∧ s.mem 65 = true := by
  have hedits : ∀ e ∈ [Edit.erase 3, .erase 65, .assign 65 true], e.pos < (Source.full 66).size := by
    decide
  obtain ⟨s, hs, hanswers, -⟩ := Source.canonical_editAll (Source.full 66) hedits
  refine ⟨s, hs, hanswers.size_words, ?_, ?_, (hanswers.mem_iff 65).2 (by decide)⟩
  · rw [hanswers.count_eq]
    decide
  · rw [Bool.eq_false_iff, ne_eq, hanswers.mem_iff]
    decide

end Orthotope.BitSet
