import Orthotope.Proofs.Channel.Readable
import Orthotope.Proofs.Document.RoundTrip
import Orthotope.Proofs.Store.Offered
import Orthotope.Proofs.Store.Requests

/-!
# Documents of cubes

The elements that a cube has in a store are a list (`Store.Lists`): single reads give its entries and
bulk reads stretches of it. Every cube that is offered has such a list (`Store.Offers.exists_lists`), and
a leaf cube made of a list has that one (`Session.run_ofDocument`).

Going through a cube block by block gathers its list (`Store.Lists.gather`), which therefore is what the
document of the cube holds (`Store.Lists.outcome_toDocument`). The cube that is made of the document has the
same shape and the same list, and so has the same document (`Store.Lists.documents`). None of this depends on
the format that documents are written in. `Store.Offers.document_round_trip` adds what is true of JSON.
-/

namespace Orthotope

variable {k : Kind}

/-! ## Elements as a list -/

/-- In a store, a cube has the elements of a list in row-major order, which single and bulk reads give. -/
structure Store.Lists (s : Store) (c : Cube k) (xs : List k.Elem) : Prop where
  length : xs.length = c.size
  get : ∀ {p} (hp : p < xs.length), (c.elements.raw.get p).outcome s = (.ok xs[p], s)
  read : ∀ {p n}, p + n ≤ xs.length →
    (c.elements.raw.readSpan ⟨p, n⟩).outcome s = (.ok ((xs.drop p).take n), s)

namespace Store

variable {s t : Store} {c d : Cube k} {xs ys : List k.Elem} {writable : Bool}

/-- Single reads tell the list of a cube. -/
theorem Lists.eq_of_get (h : s.Lists c xs) (hlength : ys.length = c.size)
    (hget : ∀ p (hp : p < ys.length), ((c.elements.raw.get p).outcome s).1 = .ok ys[p]) : xs = ys := by
  refine List.ext_getElem (h.length.trans hlength.symm) fun p hp hp' => ?_
  have heq := hget p hp'
  rw [h.get hp] at heq
  exact Except.ok.inj heq

/-- Cubes of which single reads give the same have the same list. -/
theorem Lists.unique (h : s.Lists c xs) (h' : t.Lists d ys) (hsize : c.size = d.size)
    (hget : ∀ p < c.size,
      ((c.elements.raw.get p).outcome s).1 = ((d.elements.raw.get p).outcome t).1) : xs = ys := by
  have hlength : ys.length = c.size := h'.length.trans hsize.symm
  refine h.eq_of_get hlength fun p hp => ?_
  rw [hget p (hlength ▸ hp), h'.get hp]

/-- A cube that is offered has a list of elements. -/
theorem Offers.exists_lists (h : s.Offers c writable) : ∃ xs, s.Lists c xs := by
  obtain ⟨f, hshows⟩ := h.shows
  obtain ⟨J, hJ, -, hreads⟩ := h.reads
  have hsize : c.elements.raw.size = c.size := c.size_raw_elements
  have hlength : ((List.range' 0 c.size).map f).length = c.size := by simp
  have hentry : ∀ {q x}, ((List.range' 0 c.size).map f)[q]? = some x → f q = id x := by
    intro q x hx
    obtain ⟨hq, hx⟩ := List.getElem?_eq_some_iff.1 hx
    simpa using hx
  refine ⟨(List.range' 0 c.size).map f, hlength, fun {p} hp => ?_, fun {p n} hle => ?_⟩
  · rw [hshows.get (hsize ▸ hlength ▸ hp), hentry (List.getElem?_eq_getElem hp)]
    rfl
  · have hle' : p + n ≤ c.elements.raw.size := hsize ▸ hlength ▸ hle
    have hvalue := (hshows.read hle').trans (congrArg Except.ok (Channel.map_range'_eq_stretch hentry hle))
    rw [List.map_id] at hvalue
    rcases hreads s hJ p n hle' s rfl with ⟨ys, t, hrun, -, rfl⟩ | ⟨hfalse, -⟩
    · rw [hrun] at hvalue ⊢
      exact Prod.ext hvalue rfl
    · exact hfalse.elim

/-- A cube has as many positions to read as its list has elements. -/
theorem Lists.size_raw (h : s.Lists c xs) : c.elements.raw.size = xs.length :=
  c.size_raw_elements.trans h.length.symm

/-- Going through a cube block by block gathers its list. -/
theorem Lists.gather (h : s.Lists c xs) :
    (c.elements.raw.foldBlocks (fun acc ys => return acc ++ ys) []).outcome s = (.ok xs, s) := by
  have hstep : ∀ {pos n acc t}, 0 < n → pos + n ≤ c.elements.raw.size → acc = xs.take pos ∧ t = s →
      ∃ acc' t', (do return acc ++ (← c.elements.raw.readSpan ⟨pos, n⟩) : Act Store _).outcome t =
        (.ok acc', t') ∧ acc' = xs.take (pos + n) ∧ t' = s := by
    rintro pos n acc t - hle ⟨rfl, rfl⟩
    refine ⟨_, _, ?_, List.take_add.symm, rfl⟩
    rw [Act.outcome_bind, h.read (h.size_raw ▸ hle)]
    rfl
  obtain ⟨acc, t, hrun, hacc, rfl⟩ := Channel.foldBlocks_rule
    (P := fun pos acc t => acc = xs.take pos ∧ t = s) hstep ⟨List.take_zero.symm, rfl⟩
  rw [hrun, hacc, h.size_raw, List.take_length]

/-- The document of a cube holds its list, and making it leaves the store as it is. -/
theorem Lists.outcome_toDocument {w : Workspace} (h : w.store.Lists c xs) :
    (Session.toDocument c).outcome w = (.ok ⟨c.shape, xs⟩, w.store) := by
  obtain ⟨v, hrun, hstore⟩ := Session.run_perform h.gather
  unfold Session.toDocument Session.outcome
  rw [Session.run_bind_of_ok hrun]
  exact Prod.ext rfl hstore

variable {slot shift : Nat} {dims : List Dimension}

/-- A leaf cube over dense storage has the list that the storage is cut from. -/
theorem KeepsList.outcome_get (h : s.KeepsList k slot (shapeOf dims) shift xs) {p : Nat}
    (hp : p < xs.length) :
    ((Cube.leaf k slot dims).elements.raw.get p).outcome s = (.ok xs[p], s) := by
  obtain ⟨hlength, d, hleaf, hcut⟩ := h
  have hcovers : d.Covers (sizeOf (shapeOf dims)) := hlength ▸ hcut.tiled.covers
  have hbacks : s.Backs slot (shapeOf dims) (Dense.access (shapeOf dims) k.null) d _ :=
    backs_dense hleaf
  have hshows := hbacks.shows Access.raw rfl ((Dense.plain (sizeOf (shapeOf dims))).shows hcovers)
  rw [← hcut.item_eq (List.getElem?_eq_getElem hp)]
  exact hshows.get (Nat.lt_of_lt_of_eq hp hlength)

/-- A dense cube that is offered has the list that its storage is cut from. -/
theorem KeepsList.lists (h : s.KeepsList k slot (shapeOf dims) shift xs)
    (hoffers : s.Offers (.leaf k slot dims) writable) : s.Lists (.leaf k slot dims) xs := by
  obtain ⟨ys, hys⟩ := hoffers.exists_lists
  obtain rfl := hys.eq_of_get h.1 fun p hp => congrArg Prod.fst (h.outcome_get hp)
  exact hys

end Store

namespace Session

/-- A dense cube of the shape and the elements of a document. -/
def ofDocument (d : Document k) : Session (Cube k) :=
  ofList k (Dimension.ofShape d.shape) d.data

/-- What is made of a document is a dense cube with its shape and its elements. -/
theorem run_ofDocument {d : Document k} (h : d.data.length = sizeOf d.shape) (w : Workspace) :
    ∃ slot w', (ofDocument d).run.run w = (.ok (.leaf k slot (Dimension.ofShape d.shape)), w') ∧
      (Cube.leaf k slot (Dimension.ofShape d.shape)).shape = d.shape ∧
      w'.store.KeepsList k slot d.shape Dense.maxChunkShift d.data ∧
      w'.store.Lists (.leaf k slot (Dimension.ofShape d.shape)) d.data := by
  have hmake := (DenseSource.ofList d.data).run_make (Dimension.ofShape d.shape) w
  rw [DenseSource.items, shapeOf_ofShape, if_pos h] at hmake
  obtain ⟨slot, w', hrun, hkeeps⟩ := hmake
  have hshape : (Cube.leaf k slot (Dimension.ofShape d.shape)).shape = d.shape := shapeOf_ofShape d.shape
  have hoffers : w'.store.Offers (.leaf k slot (Dimension.ofShape d.shape)) true :=
    .made (.dense (Dimension.ofShape d.shape) (.ofList d.data)) hrun .refl .root
  have hlists := Store.KeepsList.lists (shapeOf_ofShape d.shape ▸ hkeeps) hoffers
  exact ⟨slot, w', hrun, hshape, hkeeps, hlists⟩

end Session

namespace Store

variable {c : Cube k} {writable : Bool} {w : Workspace} {xs : List k.Elem}

/-- What the document of a cube is, whatever the format that it is written in. -/
structure Documents (w : Workspace) (c : Cube k) (xs : List k.Elem) : Prop where
  lists : w.store.Lists c xs
  /-- The document holds the shape and the elements that single reads give. -/
  document : (Session.toDocument c).outcome w = (.ok ⟨c.shape, xs⟩, w.store)
  /-- A format that gives back what the two fields hold gives back the document. -/
  entries : ∀ shape data : (f : Field) → Except Fault (f.Value k),
    shape .shape = .ok c.shape → data .data = .ok xs →
    Draft.ofEntries {} [("shape", shape), ("data", data)] = .ok ⟨c.shape, xs⟩
  /-- What is made of the document is a dense cube with the same shape and the same elements. -/
  made : ∀ v : Workspace, ∃ slot v',
    (Session.ofDocument ⟨c.shape, xs⟩).run.run v =
      (.ok (.leaf k slot (Dimension.ofShape c.shape)), v') ∧
    (Cube.leaf k slot (Dimension.ofShape c.shape)).shape = c.shape ∧
    v'.store.KeepsList k slot c.shape Dense.maxChunkShift xs ∧
    v'.store.Lists (.leaf k slot (Dimension.ofShape c.shape)) xs
  /-- Any cube that is offered somewhere and has the same shape and the same elements has the same
  document. -/
  same : ∀ (v : Workspace) (d : Cube k) (writable : Bool), v.store.Offers d writable → d.shape = c.shape →
    (∀ p < c.size, ((d.elements.raw.get p).outcome v.store).1 =
      ((c.elements.raw.get p).outcome w.store).1) →
    (Session.toDocument d).outcome v = (.ok ⟨c.shape, xs⟩, v.store)

theorem Lists.documents (h : w.store.Lists c xs) : Documents w c xs where
  lists := h
  document := h.outcome_toDocument
  entries _ _ hshape hdata := Draft.ofEntries_fields (d := ⟨c.shape, xs⟩) h.length hshape hdata
  made v := Session.run_ofDocument (d := ⟨c.shape, xs⟩) h.length v
  same v d writable hd hshape hget := by
    obtain ⟨ys, hys⟩ := hd.exists_lists
    have hsize : d.size = c.size := congrArg sizeOf hshape
    obtain rfl : ys = xs := hys.unique h hsize fun p hp => hget p (hsize ▸ hp)
    rw [← hshape]
    exact hys.outcome_toDocument

/-- A cube that is offered goes into a document and comes back from it, whatever its storage and its layers
are. It is so in any format that gives back the two fields. The JSON text does for whole numbers and truth
values, if the lengths of the axes fit 64 bits. -/
theorem Offers.document_round_trip (h : w.store.Offers c writable) :
    ∃ xs, Documents w c xs ∧
      (k.isReal = false → (∀ n ∈ c.shape, n ≤ maxPosition) →
        Document.read k (Document.text ⟨c.shape, xs⟩) = .ok ⟨c.shape, xs⟩) := by
  obtain ⟨xs, hxs⟩ := h.exists_lists
  exact ⟨xs, hxs.documents, fun hk hlengths => Document.read_text ⟨c.shape, xs⟩ hk hlengths hxs.length⟩

/-- A transposed conversion of six numbers goes into a document and comes back from its text. -/
theorem Offers.document_round_trip_transposed :
    let source : LeafSource .i32 := .dense [.ofLength 2, .ofLength 3] (.ofList [1, -2, 3, -4, 5, -6])
    let w := (source.make.run.run {}).2
    let c := ((Cube.leaf .i32 0 [.ofLength 2, .ofLength 3]).convert 0 .i64).transpose 1
    let d : Document .i64 := ⟨[3, 2], [1, -4, -2, 5, 3, -6]⟩
    w.store.Offers c true ∧ Kind.i64.isReal = false ∧ (∀ n ∈ c.shape, n ≤ maxPosition) ∧
      (Session.toDocument c).outcome w = (.ok d, w.store) ∧ Document.read .i64 d.text = .ok d ∧
      w.store.Lists c d.data := by
  intro source w c d
  have hmake : source.make.run.run {} = (.ok (.leaf .i32 0 [.ofLength 2, .ofLength 3]), w) := rfl
  have hlayered : Layered (.leaf .i32 0 [.ofLength 2, .ofLength 3]) c :=
    .derive (.convert .root) (rfl : Derivation.transpose.make 1 _ = .ok c)
  have hc : w.store.Offers c true := .made source hmake .refl hlayered
  have hlengths : ∀ n ∈ c.shape, n ≤ maxPosition := by decide
  obtain ⟨xs, ⟨hlists, hdocument, -, -, -⟩, htext⟩ := hc.document_round_trip
  have hget : ∀ p < 6, ((c.elements.raw.get p).outcome w.store).1 = .ok (d.data.getD p 0) := by
    intro p hp
    match p, hp with
    | 0, _ | 1, _ | 2, _ | 3, _ | 4, _ | 5, _ => rfl
  have hsame : xs = d.data := by
    refine List.ext_getElem hlists.length fun p hp hp' => ?_
    have heq := hget p hp'
    rw [hlists.get hp] at heq
    simpa [hp'] using Except.ok.inj heq
  subst hsame
  exact ⟨hc, rfl, hlengths, hdocument, htext rfl hlengths, hlists⟩

end Store

end Orthotope
