import Orthotope.Document

/-!
# Documents read back from their text

A scanner reads a text as a value if it gives the value and leaves what comes after the text, as long as
that ends the value (`Scan.Reads`). The digits of a number that fits 64 bits are read as that number
(`Scan.number_toDigits`), and so are the texts of whole numbers and truth values (`Document.reads_element`).
A list of texts between brackets is then read as the list of the values (`Document.list_compact`).

So a document of whole numbers or truth values is read back from its text
(`Document.read_text`), and a document of any kind from what a format gives back for its two
fields (`Draft.ofEntries_fields`).
-/

namespace Orthotope

namespace Scan

/-! ## Numbers -/

/-- What comes next ends a value of a list or an object. -/
def Ends : List Char → Prop
  | [] => False
  | c :: _ => c = ',' ∨ c = ']' ∨ c = '}'

/-- A scanner reads a text as a value and leaves what comes after it, if that ends the value. -/
def Reads {α : Type} (scan : List Char → Except Fault (α × List Char)) (text : List Char) (x : α) : Prop :=
  ∀ rest, Ends rest → scan (text ++ rest) = .ok (x, rest)

/-- A text begins a value: it does not begin with a blank, a comma or a closing bracket. -/
def Begins : List Char → Prop
  | [] => False
  | c :: _ => isBlank c = false ∧ c ≠ ',' ∧ c ≠ ']'

section
variable {α : Type} {d : Char} {ds rest : List Char} {n : Nat} {negative : Bool} {x : α}
  {accept : Number → Option α}

theorem le_ofDigitChars (ds : List Char) (n : Nat) : n ≤ Nat.ofDigitChars 10 ds n := by
  induction ds generalizing n with
  | nil => exact Nat.le_of_eq Nat.ofDigitChars_nil.symm
  | cons d ds ih =>
    rw [Nat.ofDigitChars_cons]
    have := ih (10 * n + (d.toNat - '0'.toNat))
    omega

/-- All digits are collected if the number fits 64 bits. -/
theorem collect_eq (h : Nat.ofDigitChars 10 ds n ≤ collect.maxWord) :
    collect n ds = (Nat.ofDigitChars 10 ds n, []) := by
  induction ds generalizing n with
  | nil => rw [collect, Nat.ofDigitChars_nil]
  | cons d ds ih =>
    rw [Nat.ofDigitChars_cons, Nat.mul_comm] at h ⊢
    rw [collect, if_pos (Nat.le_trans (le_ofDigitChars ds _) h), ih h]

/-- Digits go as far as the end of the value. -/
theorem span_digits (hds : ∀ d ∈ ds, d.isDigit) (hrest : Ends rest) :
    (ds ++ rest).takeWhile Char.isDigit = ds ∧ (ds ++ rest).dropWhile Char.isDigit = rest := by
  cases rest with
  | nil => exact hrest.elim
  | cons c rest =>
    have hc : ¬ c.isDigit := by
      rcases hrest with rfl | rfl | rfl <;> decide
    rw [List.takeWhile_append_of_pos hds, List.dropWhile_append_of_pos hds,
      List.takeWhile_cons_of_neg hc, List.dropWhile_cons_of_neg hc, List.append_nil]
    exact ⟨rfl, rfl⟩

/-- The digits of a number, of which the first is zero only if the number is. -/
theorem toDigits_eq_cons (n : Nat) :
    ∃ d ds, Nat.toDigits 10 n = d :: ds ∧ d.isDigit ∧ (0 < n → d ≠ '0') := by
  induction n using Nat.strongRecOn with
  | ind n ih =>
    rcases Nat.lt_or_ge n 10 with hn | hn
    · refine ⟨n.digitChar, [], Nat.toDigits_of_lt_base hn, ?_, fun hpos hzero => ?_⟩
      · rwa [Nat.isDigit_digitChar, decide_eq_true_iff]
      · rw [Nat.digitChar_eq_zero] at hzero
        omega
    · obtain ⟨d, ds, hds, hdigit, hd⟩ := ih (n / 10) (by omega)
      refine ⟨d, ds ++ [(n % 10).digitChar], ?_, hdigit, fun _ => hd (by omega)⟩
      rw [Nat.toDigits_of_base_le (by decide) hn, hds, List.cons_append]

/-- The digits of a number that fits 64 bits are read as that number. -/
theorem number_toDigits (hn : n ≤ collect.maxWord) (hrest : Ends rest) :
    number negative (Nat.toDigits 10 n ++ rest) = afterDigits negative n 0 rest := by
  rcases Nat.eq_zero_or_pos n with rfl | hpos
  · cases rest with
    | nil => exact hrest.elim
    | cons c rest => rcases hrest with rfl | rfl | rfl <;> rfl
  · have hdigits : ∀ d ∈ Nat.toDigits 10 n, d.isDigit := fun d hd =>
      Nat.isDigit_of_mem_toDigits (by decide) (by decide) hd
    obtain ⟨htake, hdrop⟩ := span_digits hdigits hrest
    have hcollect : collect 0 (Nat.toDigits 10 n) = (n, []) := by
      rw [collect_eq] <;> rw [Nat.ofDigitChars_ten_toDigits]
      exact hn
    obtain ⟨d, ds, hds, hdigit, hd⟩ := toDigits_eq_cons n
    rw [hds] at htake hdrop hcollect ⊢
    rw [List.cons_append] at htake hdrop ⊢
    rw [number, htake, hdrop, hcollect, if_pos hdigit]
    · rfl
    · rintro rfl
      exact hd hpos rfl

/-- Nothing follows the digits of a whole number. -/
theorem afterDigits_of_ends (hrest : Ends rest) :
    afterDigits negative n 0 rest =
      if !negative then .ok (.natural n, rest)
      else if 0 < n ∧ n ≤ 2 ^ 63 then .ok (.negative n, rest)
      else .ok (.real (Binary.ofInt .double n).neg, rest) := by
  cases rest with
  | nil => exact hrest.elim
  | cons c rest => rcases hrest with rfl | rfl | rfl <;> rfl

theorem numeric_digit {m : Number} (hd : d.isDigit) (hnumber : number false (d :: ds) = .ok (m, rest))
    (hx : accept m = some x) : numeric accept (d :: ds) = .ok (x, rest) := by
  have hminus : d ≠ '-' := by
    rintro rfl
    cases hd
  unfold numeric
  split
  · next heq => exact absurd (List.cons.inj heq).1 hminus
  · next heq =>
    cases heq
    rw [if_pos hd, hnumber]
    dsimp only [bind, Except.bind]
    rw [hx]
    rfl
  · next heq => cases heq

theorem numeric_minus {m : Number} (hnumber : number true ds = .ok (m, rest)) (hx : accept m = some x) :
    numeric accept ('-' :: ds) = .ok (x, rest) := by
  unfold numeric
  split
  · next heq =>
    cases heq
    rw [hnumber]
    dsimp only [bind, Except.bind]
    rw [hx]
    rfl
  · next hother heq => exact absurd (List.cons.inj heq).1.symm hother
  · next heq => cases heq

/-- The digits of a natural number are read by what may be that number. -/
theorem reads_natural (hn : n ≤ collect.maxWord) (hx : accept (.natural n) = some x) :
    Reads (numeric accept) (Nat.toDigits 10 n) x := by
  intro rest hrest
  have hnumber : number false (Nat.toDigits 10 n ++ rest) = .ok (.natural n, rest) :=
    (number_toDigits hn hrest).trans (afterDigits_of_ends hrest)
  obtain ⟨d, ds, hds, hdigit, -⟩ := toDigits_eq_cons n
  rw [hds] at hnumber ⊢
  exact numeric_digit hdigit hnumber hx

/-- A sign and the digits of a positive number are read by what may be the negative of that number. -/
theorem reads_negative (hpos : 0 < n) (hn : n ≤ 2 ^ 63) (hx : accept (.negative n) = some x) :
    Reads (numeric accept) ('-' :: Nat.toDigits 10 n) x := by
  intro rest hrest
  have hword : n ≤ collect.maxWord := Nat.le_trans hn (by decide)
  have hnumber : number true (Nat.toDigits 10 n ++ rest) = .ok (.negative n, rest) := by
    rw [number_toDigits hword hrest, afterDigits_of_ends hrest, if_neg (by decide), if_pos ⟨hpos, hn⟩]
  exact numeric_minus hnumber hx

theorem begins_toDigits (n : Nat) : Begins (Nat.toDigits 10 n) := by
  obtain ⟨d, ds, hds, hdigit, -⟩ := toDigits_eq_cons n
  have hother : ∀ c, c.isDigit = false → d ≠ c := by
    rintro c hc rfl
    exact Bool.false_ne_true (hc.symm.trans hdigit)
  rw [hds]
  refine ⟨?_, hother _ rfl, hother _ rfl⟩
  simp [isBlank, hother ' ' rfl, hother '\n' rfl, hother '\t' rfl, hother '\r' rfl]

end

/-! ## Strings -/

/-- Characters that need no escape are read as they are, up to the closing quote. -/
theorem string_plain {cs : List Char} (hcs : ∀ c ∈ cs, c ≠ '"' ∧ c ≠ '\\' ∧ 32 ≤ c.toNat)
    (read rest : List Char) :
    string read none (cs ++ '"' :: rest) = .ok (String.ofList (read.reverse ++ cs), rest) := by
  induction cs generalizing read with
  | nil =>
    rw [List.append_nil, List.nil_append, string.eq_def]
    rfl
  | cons c cs ih =>
    obtain ⟨⟨hquote, hescape, hcontrol⟩, hcs⟩ := List.forall_mem_cons.1 hcs
    have hstep : string read none (c :: (cs ++ '"' :: rest)) =
        string (c :: read) none (cs ++ '"' :: rest) := by
      rw [string.eq_def]
      split
      · next heq => cases heq
      · next heq => exact absurd (List.cons.inj heq).1 hescape
      · next heq => exact absurd (List.cons.inj heq).1 hescape
      · next heq => exact absurd (List.cons.inj heq).1 hescape
      · next heq =>
        cases heq
        exact (if_neg (by decide)).trans
          ((if_neg hquote).trans ((if_neg hescape).trans (if_neg (Nat.not_lt.2 hcontrol))))
    rw [List.cons_append, hstep, ih hcs, List.reverse_cons, List.append_assoc]
    rfl

/-! ## Lists -/

section
variable {α : Type} {entry : List Char → Except Fault (α × List Char)} {write : α → List Char}
  {text rest : List Char} {x : α} {xs : List α} {fuel : Nat}

theorem Begins.skipBlanks (h : Begins text) (rest : List Char) :
    Scan.skipBlanks (text ++ rest) = text ++ rest := by
  cases text with
  | nil => exact h.elim
  | cons c text => exact List.dropWhile_cons_of_neg (Bool.eq_false_iff.1 h.1)

/-- What is read of a list that begins with a value is that value and what is read of the rest. -/
theorem entries_value (hread : Reads entry text x) (hbegins : Begins text) (hrest : Ends rest) :
    entries entry true (text ++ rest) (fuel + 1) =
      (entries entry false rest fuel).map fun found => (x :: found.1, found.2) := by
  have hskip := hbegins.skipBlanks rest
  have hvalue : (entry (text ++ rest) >>= fun one =>
      entries entry false one.2 fuel >>= fun found => pure (one.1 :: found.1, found.2)) =
      (entries entry false rest fuel).map fun found => (x :: found.1, found.2) := by
    rw [hread rest hrest]
    show (entries entry false rest fuel >>= fun found => pure (x :: found.1, found.2)) = _
    cases entries entry false rest fuel <;> rfl
  cases text with
  | nil => exact hbegins.elim
  | cons c text =>
    obtain ⟨-, hcomma, hbracket⟩ := hbegins
    rw [entries, hskip]
    split
    · next heq => cases heq
    · next heq => exact absurd (List.cons.inj heq).1 hbracket
    · next heq => exact absurd (List.cons.inj heq).1 hcomma
    · exact hvalue

/-- After a comma a list goes on with a value as it begins with one. -/
theorem entries_comma (hbegins : Begins text) :
    entries entry false (',' :: (text ++ rest)) fuel = entries entry true (text ++ rest) fuel := by
  have hskip := hbegins.skipBlanks rest
  cases fuel with
  | zero => rfl
  | succ fuel =>
  cases text with
  | nil => exact hbegins.elim
  | cons c text =>
    obtain ⟨-, hcomma, hbracket⟩ := hbegins
    rw [entries, entries, hskip, show skipBlanks (',' :: (c :: text ++ rest)) =
      ',' :: (c :: text ++ rest) from rfl]
    split
    · next heq => cases heq
    · next heq => cases heq
    · next heq =>
      cases heq
      rw [if_neg Bool.false_ne_true, hskip]
      split
      · next heq => cases heq
      · next heq => exact absurd (List.cons.inj heq).1 hbracket
      · split
        · next heq => cases heq
        · next heq => exact absurd (List.cons.inj heq).1 hbracket
        · next heq => exact absurd (List.cons.inj heq).1 hcomma
        · rfl
    · next hne => exact absurd rfl (hne _)

/-- A list ends at its closing bracket. -/
theorem entries_end (first : Bool) (rest : List Char) :
    entries entry first (']' :: rest) (fuel + 1) = .ok ([], rest) := rfl

theorem ends_commas (texts : List (List Char)) (rest : List Char) :
    Ends (texts.flatMap (',' :: ·) ++ ']' :: rest) := by
  cases texts with
  | nil => exact .inr (.inl rfl)
  | cons text texts => exact .inl rfl

/-- Texts of which each comes after a comma are read as the values. -/
theorem entries_commas (hreads : ∀ x ∈ xs, Reads entry (write x) x) (hbegins : ∀ x ∈ xs, Begins (write x))
    (hfuel : xs.length < fuel) (rest : List Char) :
    entries entry false ((xs.map write).flatMap (',' :: ·) ++ ']' :: rest) fuel = .ok (xs, rest) := by
  induction xs generalizing fuel with
  | nil =>
    obtain ⟨fuel, rfl⟩ := Nat.exists_eq_add_of_lt hfuel
    exact entries_end false rest
  | cons x xs ih =>
    obtain ⟨hread, hreads⟩ := List.forall_mem_cons.1 hreads
    obtain ⟨hbegin, hbegins⟩ := List.forall_mem_cons.1 hbegins
    cases fuel with
    | zero => cases hfuel
    | succ fuel =>
      rw [List.map_cons, List.flatMap_cons, List.cons_append, List.cons_append, List.append_assoc,
        entries_comma hbegin,
        entries_value hread hbegin (ends_commas (xs.map write) rest),
        ih hreads hbegins (Nat.lt_of_succ_lt_succ hfuel)]
      rfl

theorem intercalate_cons (text : List Char) (texts : List (List Char)) :
    [','].intercalate (text :: texts) = text ++ texts.flatMap (',' :: ·) := by
  induction texts generalizing text with
  | nil => simp
  | cons next texts ih => rw [List.intercalate_cons_cons, ih, List.flatMap_cons, List.append_assoc]; rfl

theorem length_le_commas (texts : List (List Char)) : texts.length ≤ (texts.flatMap (',' :: ·)).length := by
  induction texts with
  | nil => exact Nat.le_refl _
  | cons text texts ih =>
    rw [List.flatMap_cons, List.length_append, List.length_cons, List.length_cons]
    omega

/-- Texts between brackets are read as the values. -/
theorem list_brackets (hreads : ∀ x ∈ xs, Reads entry (write x) x) (hbegins : ∀ x ∈ xs, Begins (write x))
    (rest : List Char) :
    list entry ('[' :: ([','].intercalate (xs.map write) ++ ']' :: rest)) = .ok (xs, rest) := by
  show entries entry true _ (_ + 1) = _
  cases xs with
  | nil => rfl
  | cons x xs =>
    obtain ⟨hread, hreads⟩ := List.forall_mem_cons.1 hreads
    obtain ⟨hbegin, hbegins⟩ := List.forall_mem_cons.1 hbegins
    rw [List.map_cons, intercalate_cons, List.append_assoc,
      entries_value hread hbegin (ends_commas (xs.map write) rest),
      entries_commas hreads hbegins]
    · rfl
    · have hlength := length_le_commas (xs.map write)
      rw [List.length_map] at hlength
      rw [List.length_append, List.length_append, List.length_cons]
      omega

end

end Scan

/-! ## Values -/

/-- The elements of a kind are floating-point numbers. -/
def Kind.isReal : Kind → Bool
  | f64 | f32 => true
  | i64 | i32 | bool => false

namespace Document

variable {k : Kind}

theorem toList_compact (texts : List String) :
    (compact texts).toList = '[' :: ([','].intercalate (texts.map String.toList) ++ [']']) := by
  simp only [compact, String.toList_append, String.toList_intercalate]
  rfl

/-- The text of a whole number is the digits of its magnitude, after a sign if it is negative. -/
theorem toList_toString (n : Int) :
    (toString n).toList = if 0 ≤ n then Nat.toDigits 10 n.natAbs else '-' :: Nat.toDigits 10 n.natAbs := by
  cases n with
  | ofNat n => exact Nat.toList_repr.trans (if_pos (Int.natCast_nonneg n)).symm
  | negSucc n =>
    rw [if_neg (Int.not_le.2 (Int.negSucc_lt_zero n))]
    show ("-" ++ (n + 1).repr).toList = _
    rw [String.toList_append, Nat.toList_repr]
    rfl

/-- The text of a length is read as that length. -/
theorem reads_length {n : Nat} (hn : n ≤ maxPosition) :
    Scan.Reads (Scan.numeric length?) (toString n).toList n := by
  rw [Nat.toString_eq_repr, Nat.toList_repr]
  exact Scan.reads_natural hn rfl

/-- The text of a whole number between two bounds is read as that number. -/
theorem reads_whole {α : Type} {low high n : Int} (f : Int → α) (hlow : low ≤ n) (hhigh : n ≤ high)
    (hlow' : -2 ^ 63 ≤ low) (hhigh' : high ≤ 2 ^ 64 - 1) :
    Scan.Reads (Scan.numeric fun m => (whole? low high m).map f) (toString n).toList (f n) := by
  have hwhole : ∀ m, m = n → ((some m).filter fun n => decide (low ≤ n ∧ n ≤ high)).map f = some (f n) := by
    rintro _ rfl
    rw [Option.filter_some, if_pos (decide_eq_true ⟨hlow, hhigh⟩)]
    rfl
  rw [toList_toString]
  split
  · exact Scan.reads_natural (by unfold Scan.collect.maxWord; omega) (hwhole _ (by omega))
  · exact Scan.reads_negative (by omega) (by omega) (hwhole _ (by omega))

/-- The text of an element that is not a floating-point number is read as that element. -/
theorem reads_element (hk : k.isReal = false) (x : k.Elem) :
    Scan.Reads (element k) (elementText k x).toList x := by
  cases k with
  | f64 | f32 => cases hk
  | i64 =>
    have h := reads_whole (n := x.toInt) Int64.ofInt x.le_toInt x.toInt_le (by decide) (by decide)
    rwa [Int64.ofInt_toInt] at h
  | i32 =>
    have h := reads_whole (n := x.toInt) Int32.ofInt x.le_toInt x.toInt_le (by decide) (by decide)
    rwa [Int32.ofInt_toInt] at h
  | bool =>
    intro rest _
    cases x <;> rfl

theorem begins_whole (n : Int) : Scan.Begins (toString n).toList := by
  rw [toList_toString]
  split
  · exact Scan.begins_toDigits _
  · exact ⟨rfl, by decide, by decide⟩

theorem begins_element (hk : k.isReal = false) (x : k.Elem) : Scan.Begins (elementText k x).toList := by
  cases k with
  | f64 | f32 => cases hk
  | i64 | i32 => exact begins_whole x.toInt
  | bool => cases x <;> exact ⟨rfl, by decide, by decide⟩

/-- A compact list is read as the values of its texts. -/
theorem list_compact {α : Type} {entry : List Char → Except Fault (α × List Char)} {write : α → String}
    {xs : List α} (hreads : ∀ x ∈ xs, Scan.Reads entry (write x).toList x)
    (hbegins : ∀ x ∈ xs, Scan.Begins (write x).toList) (rest : List Char) :
    Scan.list entry ((compact (xs.map write)).toList ++ rest) = .ok (xs, rest) := by
  have hlist : Scan.list entry ('[' :: ([','].intercalate (xs.map fun x => (write x).toList) ++
      ']' :: rest)) = .ok (xs, rest) := Scan.list_brackets hreads hbegins rest
  rw [toList_compact, List.map_map, List.cons_append, List.append_assoc]
  exact hlist

end Document

/-! ## Documents -/

namespace Draft

variable {k : Kind} {d : Document k}

theorem finish_eq (h : d.data.length = sizeOf d.shape) : finish ⟨some d.shape, some d.data⟩ = .ok d :=
  if_pos h

theorem add_eq {α : Type} {draft : Draft k} {name : String} {f : Field} {x : f.Value k} {rest : α}
    {value : (f : Field) → Except Fault (f.Value k × α)} (hfield : draft.field name = .ok f)
    (hvalue : value f = .ok (x, rest)) : draft.add name value = .ok (draft.put f x, rest) := by
  unfold add
  rw [hfield]
  show (value f >>= fun found => pure (draft.put f found.1, found.2)) = _
  rw [hvalue]
  rfl

/-- The two fields of a document make it up, whatever reads them, as long as each is read as what the
document has there. -/
theorem ofEntries_fields (h : d.data.length = sizeOf d.shape)
    {shape data : (f : Field) → Except Fault (f.Value k)} (hshape : shape .shape = .ok d.shape)
    (hdata : data .data = .ok d.data) :
    ofEntries {} [("shape", shape), ("data", data)] = .ok d := by
  rw [ofEntries, add_eq (f := .shape) rfl (congrArg (· >>= fun x => pure (x, ())) hshape)]
  show ofEntries ⟨some d.shape, none⟩ [("data", data)] = _
  rw [ofEntries, add_eq (f := .data) rfl (congrArg (· >>= fun x => pure (x, ())) hdata)]
  exact finish_eq h

end Draft

namespace Document

variable {k : Kind}

/-- Reading an object that has one more entry comes to reading it without that one. -/
theorem fields_entry {draft draft' : Draft k} {name rest rest' : List Char} {fuel : Nat}
    (hname : ∀ c ∈ name, c ≠ '"' ∧ c ≠ '\\' ∧ 32 ≤ c.toNat)
    (hadd : draft.add (String.ofList name) (value k rest) = .ok (draft', rest')) :
    fields draft true ('"' :: (name ++ '"' :: rest)) (fuel + 1) = fields draft' false rest' fuel ∧
      fields draft false (',' :: '"' :: (name ++ '"' :: rest)) (fuel + 1) =
        fields draft' false rest' fuel := by
  have hthen : (Scan.string [] none (name ++ '"' :: rest) >>= fun found =>
      draft.add found.1 (value k found.2) >>= fun next => fields next.1 false next.2 fuel) =
      fields draft' false rest' fuel := by
    rw [Scan.string_plain hname]
    show (draft.add (String.ofList name) (value k rest) >>= fun next =>
      fields next.1 false next.2 fuel) = _
    rw [hadd]
    rfl
  exact ⟨hthen, hthen⟩

/-- A document of whole numbers or truth values is read back from its text. -/
theorem read_text (d : Document k) (hk : k.isReal = false) (hshape : ∀ n ∈ d.shape, n ≤ maxPosition)
    (hlength : d.data.length = sizeOf d.shape) : read k d.text = .ok d := by
  let shape := (compact (d.shape.map toString)).toList
  let data := (compact (d.data.map (elementText k))).toList
  let entries := '"' :: ("shape".toList ++ '"' :: ':' :: (shape ++
    ',' :: '"' :: ("data".toList ++ '"' :: ':' :: (data ++ ['}']))))
  have htext : d.text.toList = '{' :: entries := by
    simp only [text, String.toList_append, List.append_assoc]
    rfl
  have hlengths : ∀ rest, value k (':' :: (shape ++ rest)) .shape = .ok (d.shape, rest) :=
    list_compact (fun n hn => reads_length (hshape n hn)) fun n _ => begins_whole n
  have helements : ∀ rest, value k (':' :: (data ++ rest)) .data = .ok (d.data, rest) :=
    list_compact (fun x _ => reads_element hk x) fun x _ => begins_element hk x
  have hfields : ∀ fuel, fields {} true entries (fuel + 3) = .ok (d, []) := by
    intro fuel
    rw [(fields_entry (by simp) (Draft.add_eq (f := .shape) rfl (hlengths _))).1,
      (fields_entry (by simp) (Draft.add_eq (f := .data) rfl (helements _))).2]
    show (Draft.finish ⟨some d.shape, some d.data⟩ >>= fun d => pure (d, [])) = _
    rw [Draft.finish_eq hlength]
    rfl
  have hfuel : entries.length + 1 = entries.length - 2 + 3 := by
    have : 2 ≤ entries.length := by simp [entries]
    omega
  rw [read, htext]
  show (fields {} true entries (entries.length + 1) >>= fun found =>
    if (Scan.skipBlanks found.2).isEmpty then pure found.1 else throw Fault.malformed) = _
  rw [hfuel, hfields]
  rfl

end Document

end Orthotope
