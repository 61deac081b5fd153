import Ailoy.Lib.Collection
import Ailoy.Vm.FaissStore

/-!
# The Faiss store as a collection

The store refines a `Collection` of inputs, keyed by the texts of their ids: every call returns what
the collection allows (`Shows`), and the index and the map of documents hold the same ids at all
times. `Represents` is the invariant, over the rows of the index, the documents and the counter; one
record more is `Represents.insertOne`, and a batch of them is by induction on the inputs. The
counter is an `int64_t`, so all this is for the first `2^64` ids.
-/

namespace Ailoy

/-- A `float32` embedding of the dimension `d`. -/
structure Ndarray.IsEmbedding (d : ℕ) (a : Ndarray) : Prop where
  shape : a.shape = [UInt64.ofNat d]
  dtype : a.dtype = float32
  data : a.data.length = 4 * d

/-- The first `d` floats of the data. -/
def Ndarray.floats (d : ℕ) (a : Ndarray) : List ℕ := (List.range d).map (wordAt 4 a.data)

/-- The floats of an embedding give it back. -/
theorem Ndarray.IsEmbedding.eq {d : ℕ} {a : Ndarray} (h : a.IsEmbedding d) :
    (⟨[UInt64.ofNat d], float32, (a.floats d).flatMap (leBytes 4)⟩ : Ndarray) = a := by
  unfold Ndarray.floats
  rw [flatMap_leBytes_words h.data, ← h.shape, ← h.dtype]

/-- The id with the number `j`. -/
def nthId (j : ℕ) : Int64 := Int64.ofNat j

/-- Ids repeat after `2^64` numbers only, wherever the numbers start. -/
theorem nthId_add_inj (base : ℕ) {j k : ℕ} (hj : j < 2 ^ 64) (hk : k < 2 ^ 64)
    (h : nthId (base + j) = nthId (base + k)) : j = k := by
  have hbits := congrArg (fun i => i.toUInt64.toNat) h
  unfold nthId at hbits
  simp only [Int64.toUInt64_ofNat', UInt64.toNat_ofNat'] at hbits
  omega

theorem nthId_inj {j k : ℕ} (hj : j < 2 ^ 64) (hk : k < 2 ^ 64) (h : nthId j = nthId k) : j = k := by
  rw [← Nat.zero_add j, ← Nat.zero_add k] at h
  exact nthId_add_inj 0 hj hk h

theorem nthId_succ (j : ℕ) : nthId j + 1 = nthId (j + 1) := (Int64.ofNat_add j 1).symm

variable {F : FaissLibrary}

/-- The rows of an index, the documents and the counter stand for a collection. -/
structure Represents (d : ℕ) (rows : List (Int64 × List ℕ))
    (documents : UnorderedMap Int64 Document) (counter : Int64)
    (c : Collection String AddInput) : Prop where
  counter : counter = nthId c.issued.length
  issued : c.issued = (List.range c.issued.length).map fun j => int64ToString (nthId j)
  issued_le : c.issued.length ≤ 2 ^ 64
  ids : ∀ i ∈ rows.map Prod.fst, ∃ j < c.issued.length, i = nthId j
  nodup : (rows.map Prod.fst).Nodup
  rows_live : ∀ i row, (i, row) ∈ rows → ∃ input, c.live (int64ToString i) = some input ∧
    documents.lookup i = some ⟨input.document, input.metadata⟩ ∧
    input.embedding.IsEmbedding d ∧ row = input.embedding.floats d
  live_rows : ∀ k input, c.live k = some input → ∃ i ∈ rows.map Prod.fst, k = int64ToString i
  documents_rows : ∀ i, (documents.lookup i).isSome = true → i ∈ rows.map Prod.fst

namespace Represents

variable {d : ℕ} {rows : List (Int64 × List ℕ)} {documents : UnorderedMap Int64 Document}
  {counter : Int64} {c : Collection String AddInput}

/-- No key is issued twice. -/
theorem issued_nodup (h : Represents d rows documents counter c) : c.issued.Nodup := by
  rw [h.issued]
  refine List.Nodup.map_on (fun j hj k hk heq => ?_) List.nodup_range
  have hle := h.issued_le
  rw [List.mem_range] at hj hk
  exact nthId_inj (by omega) (by omega) (int64ToString_injective heq)

/-- The index and the map of documents hold the same ids. -/
theorem mem_ids_iff (h : Represents d rows documents counter c) (i : Int64) :
    i ∈ rows.map Prod.fst ↔ (documents.lookup i).isSome = true := by
  refine ⟨fun hi => ?_, h.documents_rows i⟩
  obtain ⟨⟨j, row⟩, hrow, rfl⟩ := List.mem_map.mp hi
  obtain ⟨input, -, hdoc, -⟩ := h.rows_live j row hrow
  exact Option.isSome_of_eq_some hdoc

/-- A new store stands for the empty collection. -/
theorem empty : Represents d [] ∅ 0 (.empty : Collection String AddInput) where
  counter := rfl
  issued := rfl
  issued_le := by decide
  ids := by simp
  nodup := List.nodup_nil
  rows_live := by simp
  live_rows := by simp [Collection.empty]
  documents_rows := by simp

/-- One more record under the next id. -/
theorem insertOne (h : Represents d rows documents counter c) {input : AddInput}
    (hin : input.embedding.IsEmbedding d) (hle : c.issued.length + 1 ≤ 2 ^ 64) :
    Represents d (rows ++ [(counter, input.embedding.floats d)])
      (documents.insert counter ⟨input.document, input.metadata⟩) (counter + 1)
      (c.insertOne (int64ToString counter) input) := by
  -- The counter has not been an id before, since ids repeat after `2^64` only.
  have hfresh : counter ∉ rows.map Prod.fst := by
    intro hmem
    obtain ⟨j, hj, heq⟩ := h.ids counter hmem
    rw [h.counter] at heq
    have := nthId_inj (by omega) (by omega) heq
    omega
  have hlen : (c.insertOne (int64ToString counter) input).issued.length = c.issued.length + 1 := by
    simp [Collection.insertOne]
  refine ⟨?_, ?_, ?_, ?_, ?_, ?_, ?_, ?_⟩
  · rw [hlen, h.counter, nthId_succ]
  · rw [hlen, List.range_succ, List.map_append, ← h.issued, h.counter]
    rfl
  · rw [hlen]
    exact hle
  · intro i hi
    rw [List.map_append] at hi
    rw [hlen]
    rcases List.mem_append.mp hi with hi | hi
    · obtain ⟨j, hj, rfl⟩ := h.ids i hi
      exact ⟨j, by omega, rfl⟩
    · refine ⟨c.issued.length, by omega, ?_⟩
      rw [List.mem_singleton.mp hi]
      exact h.counter
  · rw [List.map_append, List.nodup_append]
    refine ⟨h.nodup, List.nodup_singleton _, fun i hi j hj => ?_⟩
    rw [List.mem_singleton.mp hj]
    intro heq
    rw [heq] at hi
    exact hfresh hi
  · intro i row' hi
    rcases List.mem_append.mp hi with hi | hi
    · have hmem : i ∈ rows.map Prod.fst := List.mem_map.mpr ⟨(i, row'), hi, rfl⟩
      -- A record from before keeps its document.
      have hne : i ≠ counter := by
        intro heq
        rw [heq] at hmem
        exact hfresh hmem
      obtain ⟨old, hlive, hdoc, hembedding⟩ := h.rows_live i row' hi
      refine ⟨old, ?_, ?_, hembedding⟩
      · show (if int64ToString i = int64ToString counter then _ else _) = _
        rw [if_neg fun heq => hne (int64ToString_injective heq)]
        exact hlive
      · rw [AList.lookup_insert_ne hne]
        exact hdoc
    · obtain ⟨rfl, rfl⟩ := Prod.mk.inj (List.mem_singleton.mp hi)
      exact ⟨input, if_pos rfl, AList.lookup_insert _, hin, rfl⟩
  · intro k old hk
    rw [List.map_append]
    by_cases hnew : k = int64ToString counter
    · exact ⟨counter, List.mem_append_right _ (List.mem_singleton_self _), hnew⟩
    · -- Any other record is one from before.
      have hk' : c.live k = some old := (if_neg hnew).symm.trans hk
      obtain ⟨i, hi, hki⟩ := h.live_rows k old hk'
      exact ⟨i, List.mem_append_left _ hi, hki⟩
  · intro i hi
    rw [List.map_append]
    by_cases hnew : i = counter
    · exact List.mem_append_right _ (List.mem_singleton.mpr hnew)
    · -- The document of another id was there before.
      rw [AList.lookup_insert_ne hnew] at hi
      exact List.mem_append_left _ (h.documents_rows i hi)

/-- The records under the ids that stay, when some are removed. -/
theorem filter (h : Represents d rows documents counter c) {p : Int64 → Bool}
    {documents' : UnorderedMap Int64 Document} {c' : Collection String AddInput}
    (hissued : c'.issued = c.issued)
    (hdocuments : ∀ i, documents'.lookup i = if p i = true then none else documents.lookup i)
    (hlive : ∀ i, c'.live (int64ToString i) =
      if p i = true then none else c.live (int64ToString i))
    (hold : ∀ k input, c'.live k = some input → c.live k = some input) :
    Represents d (rows.filter fun r => !p r.1) documents' counter c' := by
  -- The ids that are left are those that are not selected.
  have hmem : ∀ i, i ∈ (rows.filter fun r => !p r.1).map Prod.fst ↔
      i ∈ rows.map Prod.fst ∧ p i = false := by
    intro i
    simp only [List.mem_map, List.mem_filter, Bool.not_eq_true']
    constructor
    · rintro ⟨r, ⟨hr, hsel⟩, rfl⟩
      exact ⟨⟨r, hr, rfl⟩, hsel⟩
    · rintro ⟨⟨r, hr, rfl⟩, hsel⟩
      exact ⟨r, ⟨hr, hsel⟩, rfl⟩
  refine ⟨by rw [hissued]; exact h.counter, by rw [hissued]; exact h.issued,
    by rw [hissued]; exact h.issued_le, ?_, ?_, ?_, ?_, ?_⟩
  · intro i hi
    rw [hissued]
    exact h.ids i ((hmem i).mp hi).1
  · exact h.nodup.sublist (List.Sublist.map _ List.filter_sublist)
  · intro i row hi
    obtain ⟨hi, hsel⟩ := List.mem_filter.mp hi
    have hstay : ¬ p i = true := by simpa using hsel
    obtain ⟨input, hin, hdoc, hembedding⟩ := h.rows_live i row hi
    exact ⟨input, by rw [hlive, if_neg hstay]; exact hin,
      by rw [hdocuments, if_neg hstay]; exact hdoc, hembedding⟩
  · intro k input hk
    obtain ⟨i, hi, rfl⟩ := h.live_rows k input (hold k input hk)
    refine ⟨i, (hmem i).mpr ⟨hi, ?_⟩, rfl⟩
    by_contra hsel
    rw [hlive, if_pos (by simpa using hsel)] at hk
    cases hk
  · intro i hi
    rw [hdocuments] at hi
    by_cases hsel : p i = true
    · rw [if_pos hsel] at hi
      cases hi
    · rw [if_neg hsel] at hi
      exact (hmem i).mpr ⟨h.documents_rows i hi, by simpa using hsel⟩

/-- An id that is not the text of a row's id has no record. -/
theorem live_eq_none (h : Represents d rows documents counter c) {i : Int64}
    (hi : i ∉ rows.map Prod.fst) : c.live (int64ToString i) = none := by
  cases hlive : c.live (int64ToString i) with
  | none => rfl
  | some input =>
    obtain ⟨j, hj, heq⟩ := h.live_rows _ input hlive
    rw [int64ToString_injective heq] at hi
    exact absurd hj hi

/-- There are as many records as rows, and no more than there were ids. -/
theorem hasCount (h : Represents d rows documents counter c) : c.HasCount rows.length := by
  refine ⟨(rows.map Prod.fst).map int64ToString, h.nodup.map int64ToString_injective, by simp,
    fun k => ⟨fun hk => ?_, fun hk => ?_⟩⟩
  · obtain ⟨i, hi, rfl⟩ := List.mem_map.mp hk
    obtain ⟨⟨j, row⟩, hrow, rfl⟩ := List.mem_map.mp hi
    obtain ⟨input, hin, -⟩ := h.rows_live j row hrow
    exact Option.isSome_of_eq_some hin
  · obtain ⟨input, hin⟩ := Option.isSome_iff_exists.mp hk
    obtain ⟨i, hi, rfl⟩ := h.live_rows k input hin
    exact List.mem_map_of_mem hi

theorem length_le (h : Represents d rows documents counter c) : rows.length ≤ c.issued.length := by
  have hsub : rows.map Prod.fst ⊆ (List.range c.issued.length).map nthId := by
    intro i hi
    obtain ⟨j, hj, rfl⟩ := h.ids i hi
    exact List.mem_map_of_mem (List.mem_range.mpr hj)
  have hle := (List.subperm_of_subset h.nodup hsub).length_le
  rwa [List.length_map, List.length_map, List.length_range] at hle

end Represents

namespace FaissStore

variable {d : ℕ} {s : FaissStore F}

/-! ## The embeddings -/

/-- An embedding of the dimension of the store is accepted, and its floats are read. -/
theorem row_of_isEmbedding (hdim : F.d s.index = d) (hd : d < 2 ^ 31) {a : Ndarray}
    (h : a.IsEmbedding d) :
    s.isValidEmbedding a = true ∧ s.row a = .ok (a.floats d) := by
  obtain ⟨hshape, hdtype, hdata⟩ := h
  have hitem : a.itemsize = 4 := by
    unfold Ndarray.itemsize
    rw [hdtype]
    rfl
  have hsize : a.size / 4 = d := by
    rw [Ndarray.size_vector hd hshape, hitem, Nat.mul_div_cancel _ (by decide)]
  constructor
  · unfold isValidEmbedding
    have hwidth : UInt64.size = 2 ^ 64 := rfl
    rw [hshape, hdim]
    simp only [decide_eq_true_eq]
    exact UInt64.toNat_ofNat_of_lt' (by omega)
  · unfold row Ndarray.asVector
    rw [hsize, readWords_of_le (by omega), Except.ok_bind, hdim, if_pos (by simp),
      List.take_of_length_le (by simp)]
    rfl

/-! ## The calls -/

variable {doc : F.Documented} {c : Collection String AddInput}

/-- The store has the dimension `d`, and it stands for a collection. -/
structure Refines (doc : F.Documented) (d : ℕ) (s : FaissStore F)
    (c : Collection String AddInput) : Prop where
  dim : F.d s.index = d
  represents : Represents d (doc.rows s.index) s.documentStore s.idCounter c

/-- `add_vector` of an array that is accepted: the counter goes on, whatever is read. -/
theorem addVector_eq {input : AddInput} (hvalid : s.isValidEmbedding input.embedding = true) :
    s.addVector input =
      match s.row input.embedding with
      | .error f => ({ s with idCounter := s.idCounter + 1 }, .error f)
      | .ok row =>
        (⟨F.addWithIds s.index [(s.idCounter, row)], s.idCounter + 1,
          s.documentStore.insert s.idCounter ⟨input.document, input.metadata⟩⟩,
          .ok (int64ToString s.idCounter)) := by
  unfold addVector
  rw [if_pos hvalid]
  rfl

/-- One round of the loop of `add_vectors`. -/
theorem takeRows_cons (s : FaissStore F) (input : AddInput) (inputs : List AddInput) :
    s.takeRows (input :: inputs) =
      match s.row input.embedding with
      | .error f => ({ s with idCounter := s.idCounter + 1 }, .error f)
      | .ok row =>
        match takeRows { s with idCounter := s.idCounter + 1 } inputs with
        | (s, .error f) => (s, .error f)
        | (s', .ok rows) => (s', .ok ((s.idCounter, row) :: rows)) := rfl

/-- `add_vectors` of arrays that are all accepted. -/
theorem addVectors_eq {inputs : List AddInput}
    (hvalid : ∀ input ∈ inputs, s.isValidEmbedding input.embedding = true) :
    s.addVectors inputs =
      match s.takeRows inputs with
      | (s, .error f) => (s, .error f)
      | (s, .ok rows) =>
        (⟨F.addWithIds s.index rows, s.idCounter,
          putDocuments s.documentStore (rows.map Prod.fst) inputs⟩,
          .ok ((rows.map Prod.fst).map int64ToString)) := by
  have hfind : inputs.find? (fun input => !s.isValidEmbedding input.embedding) = none := by
    rw [List.find?_eq_none]
    intro input hin
    rw [hvalid input hin]
    decide
  rcases htake : s.takeRows inputs with ⟨s', f | rows⟩
  · simp only [addVectors, hfind, htake]
  · simp only [addVectors, hfind, htake]

/-- With an array among them that is not accepted, `add_vectors` throws before it changes anything. -/
theorem addVectors_refuses (s : FaissStore F) {inputs : List AddInput} {input : AddInput}
    (hin : input ∈ inputs) (hinvalid : ¬ s.isValidEmbedding input.embedding = true) :
    ∃ what, s.addVectors inputs = (s, .error (.exception what)) := by
  unfold addVectors
  cases hfind : inputs.find? (fun input => !s.isValidEmbedding input.embedding) with
  | some x => exact ⟨_, rfl⟩
  | none =>
    have hall := List.find?_eq_none.mp hfind input hin
    rw [Bool.not_eq_true, Bool.not_eq_false'] at hall
    exact absurd hall hinvalid

/-- What `add_vector` does. -/
theorem addVector_refines (h : s.Refines doc d c) (hd : d < 2 ^ 31) {input : AddInput}
    (hin : input.embedding.IsEmbedding d) (hle : c.issued.length + 1 ≤ 2 ^ 64) :
    (s.addVector input).2 = .ok (int64ToString s.idCounter) ∧
      (s.addVector input).1.Refines doc d (c.insertOne (int64ToString s.idCounter) input) ∧
      int64ToString s.idCounter ∉ c.issued := by
  obtain ⟨hvalid, hrow⟩ := row_of_isEmbedding h.dim hd hin
  have hnext := h.represents.insertOne hin hle
  have hfresh : int64ToString s.idCounter ∉ c.issued := by
    have hnodup := hnext.issued_nodup
    have hissued : (c.insertOne (int64ToString s.idCounter) input).issued =
        c.issued ++ [int64ToString s.idCounter] := rfl
    rw [hissued, List.nodup_append] at hnodup
    exact fun hmem => hnodup.2.2 _ hmem _ (List.mem_singleton_self _) rfl
  rw [addVector_eq hvalid, hrow]
  refine ⟨rfl, ⟨(doc.d_add _ _).trans h.dim, ?_⟩, hfresh⟩
  dsimp only
  rw [doc.rows_add]
  exact hnext

/-- The loops of `add_vectors` insert the inputs one after the other. -/
theorem takeRows_represents (hdim : F.d s.index = d) (hd : d < 2 ^ 31) {inputs : List AddInput}
    (hin : ∀ input ∈ inputs, input.embedding.IsEmbedding d) {rows : List (Int64 × List ℕ)}
    {documents : UnorderedMap Int64 Document} (h : Represents d rows documents s.idCounter c)
    (hle : c.issued.length + inputs.length ≤ 2 ^ 64) :
    ∃ s' rs, s.takeRows inputs = (s', .ok rs) ∧ s'.index = s.index ∧
      s'.documentStore = s.documentStore ∧ rs.length = inputs.length ∧
      Represents d (rows ++ rs) (putDocuments documents (rs.map Prod.fst) inputs) s'.idCounter
        (c.insert (((rs.map Prod.fst).map int64ToString).zip inputs)) := by
  induction inputs generalizing s rows documents c with
  | nil =>
    refine ⟨s, [], rfl, rfl, rfl, rfl, ?_⟩
    rw [List.append_nil]
    exact h
  | cons input inputs ih =>
    have hembedding := hin input List.mem_cons_self
    have hrow := (row_of_isEmbedding hdim hd hembedding).2
    rw [List.length_cons] at hle
    have hone := h.insertOne hembedding (by omega)
    have hlen : (c.insertOne (int64ToString s.idCounter) input).issued.length =
        c.issued.length + 1 := by simp [Collection.insertOne]
    obtain ⟨s', rs, htake, hindex, hdocuments, hlength, hrest⟩ :=
      ih (s := { s with idCounter := s.idCounter + 1 }) hdim
        (fun x hx => hin x (List.mem_cons_of_mem _ hx)) hone (by omega)
    refine ⟨s', (s.idCounter, input.embedding.floats d) :: rs, ?_, hindex, hdocuments,
      by simp [hlength], ?_⟩
    · rw [takeRows_cons, hrow]
      dsimp only
      rw [htake]
    · rw [List.append_assoc, List.singleton_append] at hrest
      exact hrest

/-- What `add_vectors` does. -/
theorem addVectors_refines (h : s.Refines doc d c) (hd : d < 2 ^ 31) {inputs : List AddInput}
    (hin : ∀ input ∈ inputs, input.embedding.IsEmbedding d)
    (hle : c.issued.length + inputs.length ≤ 2 ^ 64) :
    ∃ ids, (s.addVectors inputs).2 = .ok ids ∧ ids.length = inputs.length ∧ ids.Nodup ∧
      (∀ k ∈ ids, k ∉ c.issued) ∧
      (s.addVectors inputs).1.Refines doc d (c.insert (ids.zip inputs)) := by
  obtain ⟨s', rs, htake, hindex, hdocuments, hlength, hrepresents⟩ :=
    takeRows_represents h.dim hd hin h.represents hle
  have hzip : (((rs.map Prod.fst).map int64ToString).zip inputs).map Prod.fst =
      (rs.map Prod.fst).map int64ToString := by
    rw [List.map_fst_zip]
    simp [hlength]
  -- No id is issued twice, so the last ones are new and differ.
  have hfresh := c.fresh_of_nodup hrepresents.issued_nodup
  rw [hzip] at hfresh
  rw [addVectors_eq fun input hi => (row_of_isEmbedding h.dim hd (hin input hi)).1, htake]
  refine ⟨_, rfl, by simp [hlength], hfresh.1, hfresh.2, (doc.d_add _ _).trans ?_, ?_⟩
  · rw [hindex]
    exact h.dim
  · dsimp only
    rw [doc.rows_add, hindex, hdocuments]
    exact hrepresents

/-- `operator[]` does not make an entry for an id of the index. -/
theorem documentAt_of_mem {documents : UnorderedMap Int64 Document} {i : Int64} {document : Document}
    (h : documents.lookup i = some document) : documentAt documents i = (documents, document) := by
  unfold documentAt UnorderedMap.insertNew
  rw [h]
  dsimp only
  rw [h]
  rfl

/-- What `get_by_id` does for the text of an id: it returns the record, and changes nothing. -/
theorem getById_refines (h : s.Refines doc d c) (i : Int64) :
    s.getById (int64ToString i) = (s, .ok ((c.live (int64ToString i)).map fun input =>
      ⟨int64ToString i, input.document, input.metadata, input.embedding⟩)) := by
  unfold getById
  rw [strtoll_toString]
  dsimp only
  cases hrow : F.reconstruct s.index i with
  | none =>
    dsimp only
    rw [h.represents.live_eq_none (doc.reconstruct_none _ _ hrow)]
    rfl
  | some row =>
    obtain ⟨input, hlive, hdocument, hembedding, rfl⟩ :=
      h.represents.rows_live i row (doc.reconstruct_mem _ _ _ hrow)
    dsimp only
    rw [documentAt_of_mem hdocument, hlive, h.dim, hembedding.eq]
    rfl

/-- The results of `retrieve` for ids of the index. -/
theorem readResults_refines (h : s.Refines doc d c) {found : List (Int64 × ℕ)}
    (hfound : ∀ r ∈ found, r.1 ∈ (doc.rows s.index).map Prod.fst) :
    ∃ results, readResults s.documentStore found = (s.documentStore, results) ∧
      results.map RetrieveResult.id = (found.map Prod.fst).map int64ToString ∧
      ∀ r ∈ results, ∃ input, c.live r.id = some input ∧ r.document = input.document ∧
        r.metadata = input.metadata := by
  induction found with
  | nil => exact ⟨[], rfl, rfl, by simp⟩
  | cons f found ih =>
    obtain ⟨results, hread, hids, hresults⟩ := ih fun r hr => hfound r (List.mem_cons_of_mem _ hr)
    obtain ⟨⟨i, row⟩, hrow, hi⟩ := List.mem_map.mp (hfound f List.mem_cons_self)
    obtain ⟨input, hlive, hdocument, -⟩ := h.represents.rows_live i row hrow
    rw [show i = f.1 from hi] at hlive hdocument
    refine ⟨⟨int64ToString f.1, input.document, input.metadata, f.2⟩ :: results, ?_, ?_, ?_⟩
    · rw [readResults, documentAt_of_mem hdocument]
      dsimp only
      rw [hread]
    · rw [List.map_cons, List.map_cons, List.map_cons, hids]
    · intro r hr
      rcases List.mem_cons.mp hr with rfl | hr
      · exact ⟨input, hlive, rfl, rfl⟩
      · exact hresults r hr

/-- The count that `retrieve` takes is negative as an `idx_t` from `2^63` on. -/
theorem toInt_toInt64 (k : UInt64) :
    k.toInt64.toInt = if k.toNat < 2 ^ 63 then (k.toNat : ℤ) else k.toNat - 2 ^ 64 :=
  toInt_eq_toNat_toUInt64 k.toInt64

/-- What `retrieve` does with a query that is accepted. -/
theorem retrieve_eq {q : Ndarray} (hvalid : s.isValidEmbedding q = true) (topK : UInt64) :
    s.retrieve q topK =
      if 2 ^ 63 ≤ topK.toNat then
        (s, .error (.exception "cannot create std::vector larger than max_size()"))
      else if min (F.ntotal s.index) topK.toNat = 0 then (s, .ok [])
      else
        match s.row q with
        | .error f => (s, .error f)
        | .ok vec =>
          if 2 ^ 31 ≤ min (F.ntotal s.index) topK.toNat then (s, .error .outOfBounds) else
          let results := readResults s.documentStore
            (F.search s.index vec (min (F.ntotal s.index) topK.toNat))
          ({ s with documentStore := results.1 }, .ok results.2) := by
  have hsmall := topK.toNat_lt
  unfold retrieve
  rw [if_pos hvalid, toInt_toInt64]
  dsimp only
  by_cases hlarge : 2 ^ 63 ≤ topK.toNat
  · rw [if_neg (not_lt.mpr hlarge), if_pos hlarge, if_neg (by omega), if_pos (by omega)]
  · have hcast : min (F.ntotal s.index : ℤ) topK.toNat = (min (F.ntotal s.index) topK.toNat : ℕ) := by
      omega
    rw [if_pos (not_le.mp hlarge), if_neg hlarge, hcast]
    generalize min (F.ntotal s.index) topK.toNat = k
    by_cases hzero : k = 0
    · rw [if_pos hzero, if_pos (by omega)]
    · rw [if_neg hzero, if_neg (by omega), if_neg (by omega), Int.toNat_natCast]
      cases s.row q with
      | error f => rfl
      | ok vec =>
        dsimp only
        by_cases hloop : 2 ^ 31 ≤ k
        · rw [if_pos hloop, if_pos (by omega)]
        · rw [if_neg hloop, if_neg (by omega)]

/-- What `retrieve` does with finite floats: it returns records, as many as there are and as it is
asked for, and changes nothing. -/
theorem retrieve_refines (h : s.Refines doc d c) (hd : d < 2 ^ 31) {q : Ndarray}
    (hq : q.IsEmbedding d) (hfinite : FiniteFloats (q.floats d))
    (hlive : ∀ k input, c.live k = some input → FiniteFloats (input.embedding.floats d))
    {topK : UInt64} (hint : topK.toNat < 2 ^ 63)
    (hloop : topK.toNat < 2 ^ 31 ∨ c.issued.length < 2 ^ 31) :
    ∃ results n, s.retrieve q topK = (s, .ok results) ∧ c.HasCount n ∧
      results.length = min n topK.toNat ∧ (results.map RetrieveResult.id).Nodup ∧
      ∀ r ∈ results, ∃ input, c.live r.id = some input ∧ r.document = input.document ∧
        r.metadata = input.metadata := by
  obtain ⟨hvalid, hrow⟩ := row_of_isEmbedding h.dim hd hq
  have hcount := h.represents.hasCount
  have hissued := h.represents.length_le
  -- The rows are the floats of the live records.
  have hrows : ∀ r ∈ doc.rows s.index, FiniteFloats r.2 := by
    intro r hr
    obtain ⟨input, hin, -, -, hfloats⟩ := h.represents.rows_live r.1 r.2 hr
    rw [hfloats]
    exact hlive _ _ hin
  rw [retrieve_eq hvalid, if_neg (not_le.mpr hint), doc.ntotal_eq]
  by_cases hzero : min (doc.rows s.index).length topK.toNat = 0
  · rw [if_pos hzero]
    exact ⟨[], _, rfl, hcount, by rw [hzero]; rfl, List.nodup_nil, by simp⟩
  · have hle : min (doc.rows s.index).length topK.toNat ≤ (doc.rows s.index).length :=
      Nat.min_le_left _ _
    obtain ⟨results, hread, hids, hresults⟩ :=
      readResults_refines h (doc.search_mem s.index _ _ hfinite hrows hle)
    -- As many results as the index was asked for.
    have hlen : results.length = min (doc.rows s.index).length topK.toNat := by
      calc results.length = (results.map RetrieveResult.id).length := by rw [List.length_map]
        _ = _ := by rw [hids, List.length_map, List.length_map, doc.search_length]
    rw [if_neg hzero, hrow]
    dsimp only
    rw [if_neg (by omega), hread]
    refine ⟨results, _, rfl, hcount, hlen, ?_, hresults⟩
    rw [hids]
    exact (doc.search_nodup s.index _ _ hfinite hrows hle h.represents.nodup).map
      int64ToString_injective

/-- A count from `2^63` on is refused. -/
theorem retrieve_negative (h : s.Refines doc d c) (hd : d < 2 ^ 31) {q : Ndarray}
    (hq : q.IsEmbedding d) {topK : UInt64} (hint : 2 ^ 63 ≤ topK.toNat) :
    ∃ what, s.retrieve q topK = (s, .error (.exception what)) := by
  rw [retrieve_eq (row_of_isEmbedding h.dim hd hq).1, if_pos hint]
  exact ⟨_, rfl⟩

/-- What `remove_vector` does for the text of an id. -/
theorem removeVector_refines (h : s.Refines doc d c) (i : Int64) :
    (s.removeVector (int64ToString i)).Refines doc d (c.remove (int64ToString i)) := by
  refine ⟨(doc.d_remove _ _).trans h.dim, ?_⟩
  unfold removeVector
  rw [strtoll_toString]
  dsimp only
  rw [doc.rows_remove]
  refine h.represents.filter (p := fun j => decide (j = i)) rfl (fun j => ?_) (fun j => ?_)
    fun k input hk => ?_
  · rw [UnorderedMap.lookup_erase_eq]
    simp
  · show (if int64ToString j = int64ToString i then none else _) = _
    simp [int64ToString_injective.eq_iff]
  · by_cases hsame : k = int64ToString i
    · exact absurd ((if_pos hsame).symm.trans hk) (by simp)
    · exact (if_neg hsame).symm.trans hk

/-- What `clear` does. -/
theorem clear_refines (h : s.Refines doc d c) : s.clear.Refines doc d c.clear := by
  refine ⟨(doc.d_remove _ _).trans h.dim, ?_⟩
  unfold clear
  dsimp only
  rw [doc.rows_remove]
  exact h.represents.filter (p := fun _ => true) rfl (fun _ => rfl) (fun _ => rfl)
    fun k input hk => absurd hk.symm (Option.some_ne_none input)

end FaissStore

end Ailoy
