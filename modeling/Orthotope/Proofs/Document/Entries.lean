import Mathlib.Data.List.Induction
import Mathlib.Data.List.Permutation
import Orthotope.Proofs.Store.Document

/-!
# Documents from entries

An object is a sequence of entries, in any order, with any names, as often as one likes. `Draft.Accepted` and
`Draft.Rejected` say what is to come of it without a word on how it is read: a sequence makes a document just
if it gives each field once and nothing else, with values that can be read and agree; any other has a fault,
which is that of the first entry that is faulty after those before it (`Draft.Faulty`), or else of what is
missing or does not agree in the end.

Reading goes from entry to entry. As long as none is faulty (`Draft.Flawless`), the draft holds what the
entries say (`Draft.Holds`): one more entry keeps this (`Draft.Holds.take`) or is refused for its fault
(`Draft.Holds.take_faulty`), so a run over flawless entries comes to such a draft
(`Draft.Flawless.exists_holds`). What is read is therefore accepted, and what is refused is rejected
(`Draft.ofEntries_cases`).

So every sequence of entries is decided (`Document.decided`), in whatever format it is written. The JSON text of
an object presents its entries (`Document.Presents`), and reading the text is going through them
(`Document.Presents.read_eq`). The main result, `Document.entries_accepted_or_rejected`, puts the two together.
-/

namespace Orthotope

variable {k : Kind}

/-- The name of a field. -/
def Field.name : Field → String
  | shape => "shape"
  | data => "data"

theorem Field.name_injective : Function.Injective Field.name := by
  intro f g h
  cases f <;> cases g <;> first | rfl | exact absurd h (by decide)

namespace Draft

/-- An entry of an object: its name, and what comes of its value when it is read as that of a field. -/
abbrev Entry (k : Kind) : Type := String × ((f : Field) → Except Fault (f.Value k))

/-- What is wrong with an entry that comes after entries of the given names. The value of a field that is
repeated does not matter. -/
inductive Faulty (seen : List String) : Entry k → Fault → Prop where
  | unknown {name : String} {value : (f : Field) → Except Fault (f.Value k)}
      (other : ∀ f : Field, name ≠ f.name) : Faulty seen (name, value) (.unknownField name)
  | repeated {f : Field} {value : (f : Field) → Except Fault (f.Value k)} (again : f.name ∈ seen) :
      Faulty seen (f.name, value) (.repeatedField f.name)
  | undecodable {f : Field} {value : (f : Field) → Except Fault (f.Value k)} {e : Fault}
      (new : f.name ∉ seen) (fails : value f = .error e) : Faulty seen (f.name, value) e

/-- No entry is faulty after those before it. -/
def Flawless (entries : List (Entry k)) : Prop :=
  ∀ before x after, entries = before ++ x :: after → ∀ e, ¬ Faulty (before.map Prod.fst) x e

/-- Entries that make a document: each field once, in either order, with values that agree. -/
def Accepted (entries : List (Entry k)) (d : Document k) : Prop :=
  ∃ shape data : (f : Field) → Except Fault (f.Value k),
    (entries = [("shape", shape), ("data", data)] ∨ entries = [("data", data), ("shape", shape)]) ∧
      shape .shape = .ok d.shape ∧ data .data = .ok d.data ∧ d.data.length = sizeOf d.shape

/-- Why entries make no document. Only if no entry is faulty does it matter what is missing, and only if
nothing is missing does it matter whether the fields agree. -/
inductive Rejected (entries : List (Entry k)) : Fault → Prop where
  | entry {before after : List (Entry k)} {x : Entry k} {e : Fault}
      (split : entries = before ++ x :: after) (first : Flawless before)
      (faulty : Faulty (before.map Prod.fst) x e) : Rejected entries e
  | noShape (flawless : Flawless entries) (shape : "shape" ∉ entries.map Prod.fst) :
      Rejected entries (.missingField "shape")
  | noData (flawless : Flawless entries) (shape : "shape" ∈ entries.map Prod.fst)
      (data : "data" ∉ entries.map Prod.fst) : Rejected entries (.missingField "data")
  | length {shape data : (f : Field) → Except Fault (f.Value k)} {lengths : List Nat} {items : List k.Elem}
      (flawless : Flawless entries) (shape_mem : ("shape", shape) ∈ entries)
      (data_mem : ("data", data) ∈ entries) (shape_eq : shape .shape = .ok lengths)
      (data_eq : data .data = .ok items) (differ : items.length ≠ sizeOf lengths) :
      Rejected entries .dataLength

variable {d : Draft k} {before entries : List (Entry k)} {x : Entry k} {e : Fault} {f : Field}

/-! ## One field -/

/-- What a draft holds for a field. -/
def get (d : Draft k) : (f : Field) → Option (f.Value k)
  | .shape => d.shape
  | .data => d.data

theorem get_put (d : Draft k) (f : Field) (x : f.Value k) : (d.put f x).get f = some x := by
  cases f <;> rfl

theorem get_put_of_ne (d : Draft k) {f g : Field} (x : f.Value k) (h : f ≠ g) :
    (d.put f x).get g = d.get g := by
  cases f <;> cases g <;> first | rfl | exact absurd rfl h

theorem field_name (d : Draft k) (f : Field) :
    d.field f.name = if (d.get f).isSome then .error (.repeatedField f.name) else .ok f := by
  cases f <;> rfl

theorem field_of_ne (d : Draft k) {name : String} (h : ∀ f : Field, name ≠ f.name) :
    d.field name = .error (.unknownField name) := by
  unfold field
  split
  · exact absurd rfl (h .data)
  · exact absurd rfl (h .shape)
  · rfl

/-! ## One entry -/

/-- A draft holds what entries say: the value of each field that they give. -/
structure Holds (d : Draft k) (entries : List (Entry k)) : Prop where
  given : ∀ f, (d.get f).isSome = true ↔ f.name ∈ entries.map Prod.fst
  get : ∀ {f x}, d.get f = some x → ∃ value, (f.name, value) ∈ entries ∧ value f = .ok x

theorem holds_empty : Holds ({} : Draft k) [] where
  given f := by cases f <;> exact iff_of_false Bool.false_ne_true List.not_mem_nil
  get {f x} h := by cases f <;> cases h

/-- The draft after one more entry. -/
def take (d : Draft k) (x : Entry k) : Except Fault (Draft k) :=
  (d.add x.1 fun f => return (← x.2 f, ())).map Prod.fst

theorem ofEntries_cons (d : Draft k) (x : Entry k) (entries : List (Entry k)) :
    ofEntries d (x :: entries) = d.take x >>= fun d => ofEntries d entries := by
  unfold take
  rw [ofEntries]
  cases d.add x.1 fun f => return (← x.2 f, ()) <;> rfl

theorem take_eq (d : Draft k) (x : Entry k) :
    d.take x = d.field x.1 >>= fun f => (x.2 f).map fun y => d.put f y := by
  unfold take add
  cases d.field x.1 with
  | error e => rfl
  | ok f => cases hvalue : x.2 f <;> simp [bind, Except.bind, Except.map, hvalue, pure, Except.pure]

theorem Holds.take_faulty (h : d.Holds before) (hx : Faulty (before.map Prod.fst) x e) :
    d.take x = .error e := by
  rw [take_eq]
  cases hx with
  | unknown other => rw [d.field_of_ne other]; rfl
  | @repeated f _ again => rw [d.field_name f, if_pos ((h.given f).2 again)]; rfl
  | @undecodable f _ _ new fails =>
    rw [d.field_name f, if_neg (mt (h.given f).1 new)]
    exact congrArg (Except.map fun y => d.put f y) fails

/-- An entry that is not faulty is taken, and the draft then holds what it says as well. -/
theorem Holds.take (h : d.Holds before) (hx : ∀ e, ¬ Faulty (before.map Prod.fst) x e) :
    ∃ d', d.take x = .ok d' ∧ d'.Holds (before ++ [x]) := by
  obtain ⟨name, value⟩ := x
  -- The entry has the name of a field that was not given, and its value can be read.
  obtain ⟨f, rfl⟩ : ∃ f : Field, name = f.name := by
    by_contra hother
    exact hx _ (.unknown fun f hf => hother ⟨f, hf⟩)
  have hnew : f.name ∉ before.map Prod.fst := fun hagain => hx _ (.repeated hagain)
  obtain ⟨y, hy⟩ : ∃ y, value f = .ok y := by
    cases hvalue : value f with
    | error e => exact absurd (.undecodable hnew hvalue) (hx e)
    | ok y => exact ⟨y, rfl⟩
  refine ⟨d.put f y, ?_, fun g => ?_, fun {g z} hz => ?_⟩
  · rw [take_eq, d.field_name f, if_neg (mt (h.given f).1 hnew)]
    exact congrArg (Except.map fun y => d.put f y) hy
  · by_cases hg : f = g
    · subst hg
      simp [get_put]
    · have hname : g.name ≠ f.name := fun heq => hg (Field.name_injective heq.symm)
      rw [d.get_put_of_ne y hg, h.given g]
      simp [hname]
  · by_cases hg : f = g
    · subst hg
      rw [get_put] at hz
      cases hz
      exact ⟨value, by simp, hy⟩
    · rw [d.get_put_of_ne y hg] at hz
      obtain ⟨value', hmem, hvalue'⟩ := h.get hz
      exact ⟨value', List.mem_append_left _ hmem, hvalue'⟩

/-! ## A sequence of entries -/

theorem flawless_nil : Flawless ([] : List (Entry k)) := fun before x after h => by
  cases before <;> cases h

theorem flawless_concat_iff :
    Flawless (before ++ [x]) ↔ Flawless before ∧ ∀ e, ¬ Faulty (before.map Prod.fst) x e := by
  constructor
  · refine fun h => ⟨fun first y after hsplit e hy => ?_, h before x [] rfl⟩
    exact h first y (after ++ [x]) (by rw [hsplit]; simp) e hy
  · rintro ⟨hbefore, hx⟩ first y after hsplit e hy
    rcases List.eq_nil_or_concat' after with rfl | ⟨after, z, rfl⟩
    · obtain ⟨rfl, hxy⟩ := List.append_inj' hsplit rfl
      cases hxy
      exact hx e hy
    · rw [← List.cons_append, ← List.append_assoc] at hsplit
      obtain ⟨rfl, -⟩ := List.append_inj' hsplit rfl
      exact hbefore first y after rfl e hy

/-- Entries without a fault are read into a draft that holds what they say. -/
theorem Flawless.exists_holds (h : Flawless before) :
    ∃ d, Holds d before ∧ ∀ entries, ofEntries {} (before ++ entries) = ofEntries d entries := by
  induction before using List.reverseRecOn with
  | nil => exact ⟨{}, holds_empty, fun entries => rfl⟩
  | append_singleton before x ih =>
    obtain ⟨hbefore, hx⟩ := flawless_concat_iff.1 h
    obtain ⟨d, hd, hrun⟩ := ih hbefore
    obtain ⟨d', htake, hd'⟩ := hd.take hx
    refine ⟨d', hd', fun entries => ?_⟩
    rw [List.append_assoc, hrun, List.singleton_append, ofEntries_cons, htake]
    rfl

/-- Of entries that are not flawless, there is a first that is faulty. -/
theorem flawless_or_exists_first (entries : List (Entry k)) : Flawless entries ∨
    ∃ before x after e, entries = before ++ x :: after ∧ Flawless before ∧
      Faulty (before.map Prod.fst) x e := by
  induction entries using List.reverseRecOn with
  | nil => exact .inl flawless_nil
  | append_singleton entries x ih =>
    rcases ih with hentries | ⟨before, y, after, e, rfl, hbefore, hy⟩
    · by_cases hx : ∃ e, Faulty (entries.map Prod.fst) x e
      · obtain ⟨e, hx⟩ := hx
        exact .inr ⟨entries, x, [], e, rfl, hentries, hx⟩
      · exact .inl (flawless_concat_iff.2 ⟨hentries, not_exists.1 hx⟩)
    · exact .inr ⟨before, y, after ++ [x], e, by simp, hbefore, hy⟩

/-- Reading stops at the first entry that is faulty. -/
theorem ofEntries_faulty {after : List (Entry k)} (h : Flawless before)
    (hx : Faulty (before.map Prod.fst) x e) : ofEntries {} (before ++ x :: after) = .error e := by
  obtain ⟨d, hd, hrun⟩ := h.exists_holds
  rw [hrun, ofEntries_cons, hd.take_faulty hx]
  rfl

/-- Flawless entries have names of fields. -/
theorem Flawless.exists_field (h : Flawless entries) (hx : x ∈ entries) : ∃ f : Field, x.1 = f.name := by
  obtain ⟨before, after, hsplit⟩ := List.append_of_mem hx
  by_contra hother
  exact h before x after hsplit _ (.unknown fun f hf => hother ⟨f, hf⟩)

/-- In flawless entries no field is given twice. -/
theorem Flawless.nodup (h : Flawless entries) : (entries.map Prod.fst).Nodup := by
  induction entries using List.reverseRecOn with
  | nil => exact List.nodup_nil
  | append_singleton entries x ih =>
    obtain ⟨f, hf⟩ := h.exists_field (x := x) (by simp)
    obtain ⟨hentries, hx⟩ := flawless_concat_iff.1 h
    obtain ⟨name, value⟩ := x
    subst hf
    have hnew : f.name ∉ entries.map Prod.fst := fun hagain => hx _ (.repeated hagain)
    rw [List.map_append, List.map_singleton]
    refine List.nodup_append.2 ⟨ih hentries, List.nodup_singleton _, fun name hname last hlast heq => ?_⟩
    rw [heq, List.mem_singleton.1 hlast] at hname
    exact hnew hname

/-- Flawless entries that give both fields are these two entries. -/
theorem Flawless.eq_pair {shape data : (f : Field) → Except Fault (f.Value k)} (h : Flawless entries)
    (hshape : ("shape", shape) ∈ entries) (hdata : ("data", data) ∈ entries) :
    entries = [("shape", shape), ("data", data)] ∨ entries = [("data", data), ("shape", shape)] := by
  have hmem : ∀ x : Entry k, x ∈ entries ↔ x ∈ [("shape", shape), ("data", data)] := by
    intro x
    rw [List.mem_pair]
    refine ⟨fun hx => ?_, fun hx => hx.elim (· ▸ hshape) (· ▸ hdata)⟩
    obtain ⟨f, hf⟩ := h.exists_field hx
    cases f with
    | shape => exact .inl (List.inj_on_of_nodup_map h.nodup hx hshape hf)
    | data => exact .inr (List.inj_on_of_nodup_map h.nodup hx hdata hf)
  exact List.perm_pair.1 ((List.perm_ext_iff_of_nodup h.nodup.of_map (by simp)).2 hmem)

/-! ## What is accepted and what is rejected -/

/-- A draft with both fields makes a document, if they agree. -/
theorem finish_of_both {shape : List Nat} {data : List k.Elem} (hshape : d.get .shape = some shape)
    (hdata : d.get .data = some data) :
    d.finish = if data.length = sizeOf shape then .ok ⟨shape, data⟩ else .error .dataLength := by
  obtain ⟨_, _⟩ := d
  cases hshape
  cases hdata
  rfl

theorem finish_of_noShape (h : d.get .shape = none) : d.finish = .error (.missingField "shape") := by
  obtain ⟨_, _⟩ := d
  cases h
  rfl

theorem finish_of_noData {shape : List Nat} (hshape : d.get .shape = some shape) (hdata : d.get .data = none) :
    d.finish = .error (.missingField "data") := by
  obtain ⟨_, _⟩ := d
  cases hshape
  cases hdata
  rfl

theorem Holds.get_eq_none_iff (h : d.Holds entries) : d.get f = none ↔ f.name ∉ entries.map Prod.fst := by
  rw [← h.given f, Option.not_isSome_iff_eq_none]

theorem Holds.get_eq_some (h : d.Holds entries) (hentries : Flawless entries)
    {value : (f : Field) → Except Fault (f.Value k)} (hmem : (f.name, value) ∈ entries) {y : f.Value k}
    (hvalue : value f = .ok y) : d.get f = some y := by
  obtain ⟨z, hz⟩ := Option.isSome_iff_exists.1 ((h.given f).2 (List.mem_map_of_mem (f := Prod.fst) hmem))
  obtain ⟨value', hmem', hvalue'⟩ := h.get hz
  -- No field is given twice, so that it is the same entry.
  obtain ⟨-, rfl⟩ := Prod.mk.inj (List.inj_on_of_nodup_map hentries.nodup hmem hmem' rfl)
  rw [hz, ← Except.ok.inj (hvalue.symm.trans hvalue')]

/-- Reading flawless entries ends with a draft that holds what they say. -/
theorem Flawless.exists_finish (h : Flawless entries) :
    ∃ d, Holds d entries ∧ ofEntries {} entries = d.finish := by
  obtain ⟨d, hd, hrun⟩ := h.exists_holds
  refine ⟨d, hd, ?_⟩
  have hend := hrun []
  rwa [List.append_nil] at hend

/-- Whatever the entries are, what is read of them is what they are accepted as, or they are rejected for
the fault that is met. -/
theorem ofEntries_cases (entries : List (Entry k)) :
    (∃ doc, ofEntries {} entries = .ok doc ∧ Accepted entries doc) ∨
      ∃ e, ofEntries {} entries = .error e ∧ Rejected entries e := by
  rcases flawless_or_exists_first entries with h | ⟨before, x, after, e, rfl, hbefore, hx⟩
  · obtain ⟨d, hd, hrun⟩ := h.exists_finish
    rw [hrun]
    cases hshape : d.get .shape with
    | none => exact .inr ⟨_, finish_of_noShape hshape, .noShape h (hd.get_eq_none_iff.1 hshape)⟩
    | some shape =>
      obtain ⟨readShape, hshapeMem, hshapeEq⟩ := hd.get hshape
      cases hdata : d.get .data with
      | none => exact .inr ⟨_, finish_of_noData hshape hdata,
          .noData h (List.mem_map_of_mem (f := Prod.fst) hshapeMem) (hd.get_eq_none_iff.1 hdata)⟩
      | some data =>
        obtain ⟨readData, hdataMem, hdataEq⟩ := hd.get hdata
        rw [finish_of_both hshape hdata]
        by_cases hlength : data.length = sizeOf shape
        · exact .inl ⟨_, if_pos hlength, readShape, readData, h.eq_pair hshapeMem hdataMem, hshapeEq,
            hdataEq, hlength⟩
        · exact .inr ⟨_, if_neg hlength, .length h hshapeMem hdataMem hshapeEq hdataEq hlength⟩
  · exact .inr ⟨e, ofEntries_faulty hbefore hx, .entry rfl hbefore hx⟩

/-- Entries that are accepted are read. -/
theorem Accepted.read {doc : Document k} (h : Accepted entries doc) : ofEntries {} entries = .ok doc := by
  obtain ⟨shape, data, rfl | rfl, hshape, hdata, hlength⟩ := h
  · exact ofEntries_fields hlength hshape hdata
  · rw [ofEntries, add_eq (f := .data) rfl (congrArg (· >>= fun x => pure (x, ())) hdata)]
    show ofEntries ⟨none, some doc.data⟩ [("shape", shape)] = _
    rw [ofEntries, add_eq (f := .shape) rfl (congrArg (· >>= fun x => pure (x, ())) hshape)]
    exact finish_eq hlength

/-- Entries that are rejected are refused for that fault. -/
theorem Rejected.refuse (h : Rejected entries e) : ofEntries {} entries = .error e := by
  cases h with
  | entry split first faulty =>
    rw [split]
    exact ofEntries_faulty first faulty
  | noShape flawless shape =>
    obtain ⟨d, hd, hrun⟩ := flawless.exists_finish
    rw [hrun]
    exact finish_of_noShape (hd.get_eq_none_iff.2 shape)
  | noData flawless shape data =>
    obtain ⟨d, hd, hrun⟩ := flawless.exists_finish
    obtain ⟨lengths, hlengths⟩ := Option.isSome_iff_exists.1 ((hd.given .shape).2 shape)
    rw [hrun]
    exact finish_of_noData hlengths (hd.get_eq_none_iff.2 data)
  | length flawless shape_mem data_mem shape_eq data_eq differ =>
    obtain ⟨d, hd, hrun⟩ := flawless.exists_finish
    rw [hrun, finish_of_both (hd.get_eq_some (f := .shape) flawless shape_mem shape_eq)
      (hd.get_eq_some (f := .data) flawless data_mem data_eq)]
    exact if_neg differ

end Draft

namespace Document

open Draft

/-! ## Entries of a text -/

/-- The opening quote of a name comes next, at the beginning of an object or after the comma that follows a
field. -/
def Opens (first : Bool) (cs rest : List Char) : Prop :=
  if first then Scan.skipBlanks cs = '"' :: rest
  else ∃ next, Scan.skipBlanks cs = ',' :: next ∧ Scan.skipBlanks next = '"' :: rest

/-- What comes after the opening brace of an object, or after one of its fields, presents entries up to the
closing brace. A value ends at the same place whatever it is read as. -/
inductive Presents (k : Kind) : Bool → List Char → List (Entry k) → List Char → Prop where
  | close {first : Bool} {cs left : List Char} (brace : Scan.skipBlanks cs = '}' :: left) :
      Presents k first cs [] left
  | entry {first : Bool} {cs quoted text rest left : List Char} {name : String} {entries : List (Entry k)}
      (opens : Opens first cs (quoted ++ (text ++ rest)))
      (name_eq : Scan.string [] none (quoted ++ (text ++ rest)) = .ok (name, text ++ rest))
      (ends : ∀ {f x next}, value k (text ++ rest) f = .ok (x, next) → next = rest)
      (after : Presents k false rest entries left) :
      Presents k first cs ((name, fun f => (value k (text ++ rest) f).map Prod.fst) :: entries) left

variable {first : Bool} {cs rest left : List Char} {entries : List (Entry k)}

theorem length_skipBlanks_le (cs : List Char) : (Scan.skipBlanks cs).length ≤ cs.length :=
  (List.dropWhile_suffix _).length_le

theorem Opens.length_lt (h : Opens first cs rest) : rest.length < cs.length := by
  unfold Opens at h
  split at h
  · have hcs := length_skipBlanks_le cs
    rw [h] at hcs
    exact hcs
  · obtain ⟨next, hnext, hrest⟩ := h
    have hcs := length_skipBlanks_le cs
    have hnext' := length_skipBlanks_le next
    rw [hnext, List.length_cons] at hcs
    rw [hrest, List.length_cons] at hnext'
    omega

/-- An object has fewer entries than characters. -/
theorem Presents.length_lt (h : Presents k first cs entries left) : entries.length < cs.length := by
  induction h with
  | @close _ cs _ brace =>
    have hcs := length_skipBlanks_le cs
    rw [brace, List.length_cons] at hcs
    exact Nat.zero_lt_of_lt hcs
  | entry opens _ _ _ ih =>
    have hcs := opens.length_lt
    simp only [List.length_append] at hcs
    rw [List.length_cons]
    omega

/-- Where an entry opens, the fields are read by taking it. -/
theorem fields_opens (d : Draft k) (h : Opens first cs rest) (fuel : Nat) :
    fields d first cs (fuel + 1) = Scan.string [] none rest >>= fun found =>
      d.add found.1 (value k found.2) >>= fun next => fields next.1 false next.2 fuel := by
  cases first with
  | true =>
    rw [fields, show Scan.skipBlanks cs = '"' :: rest from h]
    rfl
  | false =>
    obtain ⟨next, hnext, hrest⟩ := h
    simp only [fields, hnext, hrest]
    rfl

/-- Reading an object is going through the entries that it presents. -/
theorem Presents.fields_eq (h : Presents k first cs entries left) (d : Draft k) {fuel : Nat}
    (hfuel : entries.length < fuel) : fields d first cs fuel = (ofEntries d entries).map (·, left) := by
  induction h generalizing d fuel with
  | close brace =>
    obtain ⟨fuel, rfl⟩ := Nat.exists_eq_add_of_lt hfuel
    rw [fields, brace, ofEntries]
    cases d.finish <;> rfl
  | @entry _ _ _ text rest _ name entries opens name_eq ends _ ih =>
    cases fuel with
    | zero => cases hfuel
    | succ fuel =>
      rw [fields_opens d opens, name_eq, ofEntries_cons, take_eq]
      show (d.add name (value k (text ++ rest)) >>= _) = _
      unfold add
      cases hfield : d.field name with
      | error e => rfl
      | ok f =>
        cases hvalue : value k (text ++ rest) f with
        | error e => simp [bind, Except.bind, Except.map, hvalue]
        | ok found =>
          obtain ⟨x, next⟩ := found
          obtain rfl := ends hvalue
          have hrest := ih (d.put f x) (Nat.lt_of_succ_lt_succ hfuel)
          simpa [bind, Except.bind, Except.map, hvalue, pure, Except.pure] using hrest

/-- A text that is an object is read as its entries are. -/
theorem Presents.read_eq {text : String} (h : Presents k true cs entries left)
    (htext : Scan.skipBlanks text.toList = '{' :: cs) (hleft : Scan.skipBlanks left = []) :
    read k text = ofEntries {} entries := by
  have hfuel : entries.length < cs.length + 1 := Nat.lt_succ_of_lt h.length_lt
  rw [read, htext]
  show (fields {} true cs (cs.length + 1) >>= _) = _
  rw [h.fields_eq {} hfuel]
  cases ofEntries {} entries with
  | error e => rfl
  | ok doc =>
    show (if (Scan.skipBlanks left).isEmpty then pure doc else throw Fault.malformed) = _
    rw [hleft]
    rfl

/-- What comes of entries, whatever the format that they are written in. -/
structure Decided (entries : List (Entry k)) : Prop where
  /-- They make a document just if they are each field once, with values that are read and agree. -/
  accepted : ∀ doc, ofEntries {} entries = .ok doc ↔ Accepted entries doc
  /-- They are refused otherwise, for the first entry that is faulty after those before it, or else for what
  is missing or does not agree in the end. -/
  rejected : ∀ e, ofEntries {} entries = .error e ↔ Rejected entries e
  /-- What is made of the document is a cube of its shape and its elements. -/
  made : ∀ doc, ofEntries {} entries = .ok doc → ∀ w : Workspace, ∃ slot w',
    (Session.ofDocument doc).run.run w = (.ok (.leaf k slot (Dimension.ofShape doc.shape)), w') ∧
      (Cube.leaf k slot (Dimension.ofShape doc.shape)).shape = doc.shape ∧
      w'.store.Lists (.leaf k slot (Dimension.ofShape doc.shape)) doc.data

theorem decided (entries : List (Entry k)) : Decided entries := by
  have haccepted : ∀ doc, ofEntries {} entries = .ok doc ↔ Accepted entries doc := by
    refine fun doc => ⟨fun hread => ?_, Accepted.read⟩
    rcases ofEntries_cases entries with ⟨doc', hdoc, h⟩ | ⟨e, he, -⟩
    · exact Except.ok.inj (hdoc.symm.trans hread) ▸ h
    · cases he.symm.trans hread
  have hrejected : ∀ e, ofEntries {} entries = .error e ↔ Rejected entries e := by
    refine fun e => ⟨fun hread => ?_, Rejected.refuse⟩
    rcases ofEntries_cases entries with ⟨doc, hdoc, -⟩ | ⟨e', he, h⟩
    · cases hdoc.symm.trans hread
    · exact Except.error.inj (he.symm.trans hread) ▸ h
  refine ⟨haccepted, hrejected, fun doc hdoc w => ?_⟩
  obtain ⟨-, -, -, -, -, hlength⟩ := (haccepted doc).1 hdoc
  obtain ⟨slot, w', hrun, hshape, -, hlists⟩ := Session.run_ofDocument hlength w
  exact ⟨slot, w', hrun, hshape, hlists⟩

/-- Entries, in any order and of any names, make a document just if they are each field once, with values
that are read and agree, and are refused for the first fault otherwise. It is so in any format that presents
the entries; in JSON, the text of an object that presents them is read as they are. -/
theorem entries_accepted_or_rejected (entries : List (Entry k)) :
    Decided entries ∧
      ∀ {text : String} {cs left}, Presents k true cs entries left →
        Scan.skipBlanks text.toList = '{' :: cs → Scan.skipBlanks left = [] →
        read k text = ofEntries {} entries :=
  ⟨decided entries, fun h htext hleft => h.read_eq htext hleft⟩

/-- A text with the elements before the shape makes a cube. A field that comes again is refused before its
value, which cannot be read, and before what is wrong after it. -/
theorem entries_accepted_or_rejected_swapped :
    let text := "\x7b \"data\": [1, -2], \"shape\":[2]\x7d\n"
    let doc : Document .i32 := ⟨[2], [1, -2]⟩
    let shape : (f : Field) → Except Fault (f.Value .i32)
      | .shape => .ok [2]
      | .data => .error .unsuitable
    let unread : (f : Field) → Except Fault (f.Value .i32) := fun _ => .error .malformed
    let again := [("shape", shape), ("shape", unread), ("strides", unread)]
    read .i32 text = .ok doc ∧
      (∃ slot w', (Session.ofDocument doc).run.run {} = (.ok (.leaf .i32 slot (Dimension.ofShape [2])), w') ∧
        w'.store.Lists (.leaf .i32 slot (Dimension.ofShape [2])) [1, -2]) ∧
      Rejected again (.repeatedField "shape") := by
  intro text doc shape unread again
  let afterShape := "\x7d\n".toList
  let afterData := ", \"shape\":[2]\x7d\n".toList
  let shapeEntry : Entry .i32 :=
    ("shape", fun f => (value .i32 (":[2]".toList ++ afterShape) f).map Prod.fst)
  let dataEntry : Entry .i32 :=
    ("data", fun f => (value .i32 (": [1, -2]".toList ++ afterData) f).map Prod.fst)
  have hshape : Presents .i32 false afterData [shapeEntry] ['\n'] := by
    have hname : Scan.string [] none ("shape\"".toList ++ (":[2]".toList ++ afterShape)) =
        .ok ("shape", ":[2]".toList ++ afterShape) :=
      @Scan.string_plain "shape".toList (by simp) [] _
    refine .entry ?opens hname ?ends (.close rfl)
    case opens => exact ⟨_, rfl, rfl⟩
    case ends =>
      intro f x next h
      cases f <;> cases h <;> rfl
  have hpresents : Presents .i32 true " \"data\": [1, -2], \"shape\":[2]\x7d\n".toList
      [dataEntry, shapeEntry] ['\n'] := by
    have hname : Scan.string [] none ("data\"".toList ++ (": [1, -2]".toList ++ afterData)) =
        .ok ("data", ": [1, -2]".toList ++ afterData) :=
      @Scan.string_plain "data".toList (by simp) [] _
    refine .entry ?opens hname ?ends hshape
    case opens => rfl
    case ends =>
      intro f x next h
      cases f <;> cases h
      rfl
  obtain ⟨⟨haccepted, -, hcube⟩, hread⟩ := entries_accepted_or_rejected [dataEntry, shapeEntry]
  have hdoc : ofEntries {} [dataEntry, shapeEntry] = .ok doc :=
    (haccepted doc).2 ⟨_, _, .inr rfl, rfl, rfl, rfl⟩
  obtain ⟨slot, w', hrun, -, hlists⟩ := hcube doc hdoc {}
  have htext : read .i32 text = ofEntries {} [dataEntry, shapeEntry] :=
    hread hpresents (by decide) rfl
  have hrejected := (entries_accepted_or_rejected again).1.rejected
  exact ⟨htext.trans hdoc, ⟨slot, w', hrun, hlists⟩, (hrejected _).1 rfl⟩

end Document

end Orthotope
