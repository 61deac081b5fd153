import Ailoy.Core.ValueRoundTrip
import Ailoy.Vm.Module
import Ailoy.Vm.StoreBatch

/-!
# How many results `retrieve` returns

The operator `retrieve` of `vm/src/vector_store.hpp` over the Faiss store. Its `top_k` goes from an
`int_t` or a `uint_t` to a `uint64_t`, from there to the signed `idx_t` of Faiss, and the results are
counted with an `int`. `Stocked` is what holds in every store that calls of any kind reach: each id
of the index is there once, with the document of an input that was inserted under it. From it,
`retrieve_count_iff` says that the operator returns the results that it is asked for if and only if
the number it is asked for passes both conversions.
-/

namespace Ailoy

/-- `type_error` with a context, as the reason of an error output. -/
def ErrorOutput.typeError (context name expected actual : String) : ErrorOutput :=
  ⟨"[" ++ context ++ "] Type error:\n - name: " ++ name ++ "\n - expected: " ++ expected ++
    "\n - actual: " ++ actual⟩

/-- `range_error` with a context, as the reason of an error output. -/
def ErrorOutput.rangeError (context name : String) : ErrorOutput :=
  ⟨"[" ++ context ++ "] Range error: " ++ name⟩

variable {F : FaissLibrary}

/-! ## The operator -/

/-- The metadata of a record as a value. -/
def metadataValue : Option Json → Except Fault Value
  | none => .ok .null
  | some metadata => fromNlohmannJson metadata

/-- The metadata that an insertion makes of a value is read back as it was, up to the types of its
numbers. -/
theorem metadataValue_same (v : Value) (hv : v.Valid) (hs : v.Small) :
    ∃ w, metadataValue (some v.toNlohmannJson) = .ok w ∧ w.norm.Same v.norm := by
  show ∃ w, fromNlohmannJson v.toNlohmannJson = .ok w ∧ w.norm.Same v.norm
  induction v using Value.inductionOn with
  | array vs ih =>
    obtain ⟨ws, hws⟩ :=
      Value.exists_forall₂ fun v hmem => ih v hmem (hv.child hmem) (hs.child hmem)
    have hread := hws.imp fun _ _ h => h.1
    refine ⟨.array ws, ?_, ?_⟩
    · rw [Value.toNlohmannJson, fromNlohmannJson, Value.toNlohmannArray_eq,
        Value.fromNlohmannArray_eq_ok_iff.mpr (List.forall₂_map_left_iff.mpr hread)]
      rfl
    · rw [Value.norm, Value.norm, Value.normArray_eq, Value.normArray_eq]
      refine .array (List.forall₂_map_left_iff.mpr (List.forall₂_map_right_iff.mpr ?_))
      exact (hws.imp (S := flip fun w v => w.norm.Same v.norm) fun _ _ h => h.2).flip
  | map kvs ih =>
    have hkeys : (kvs.map Prod.fst).Nodup := hv.here
    have hperm := OrderedMap.ofEntries_perm hkeys
    have hentry : ∀ kv ∈ OrderedMap.ofEntries kvs, ∃ kw : String × Value,
        (kw.1 = kv.1 ∧ fromNlohmannJson kv.2.toNlohmannJson = .ok kw.2) ∧
          kw.2.norm.Same kv.2.norm := by
      intro kv hmem
      have hkv := hperm.mem_iff.mp hmem
      have hchild : kv.2.Child (.map kvs) := List.mem_map_of_mem hkv
      obtain ⟨w, hw, hsame⟩ := ih kv hkv (hv.child hchild) (hs.child hchild)
      exact ⟨(kv.1, w), ⟨rfl, hw⟩, hsame⟩
    obtain ⟨kws, hkws⟩ := Value.exists_forall₂ hentry
    have hread := hkws.imp fun _ _ h => h.1
    have hfst : kws.map Prod.fst = (OrderedMap.ofEntries kvs).map Prod.fst := by
      rw [← List.forall₂_eq_eq_eq, List.forall₂_map_left_iff, List.forall₂_map_right_iff]
      exact (hkws.imp (S := flip fun kw kv : String × Value => kw.1 = kv.1)
        fun _ _ h => h.1.1).flip
    refine ⟨.map kws, ?_, ?_⟩
    · rw [Value.toNlohmannJson, fromNlohmannJson, Value.toNlohmannEntries_eq,
        ← OrderedMap.map_ofEntries,
        Value.fromNlohmannObject_eq_ok_iff.mpr (List.forall₂_map_left_iff.mpr hread)]
      rfl
    · rw [Value.norm, Value.norm]
      refine .map (fun key => ?_) fun key u u' hu hu' => ?_
      · rw [Value.keys_normEntries, Value.keys_normEntries, hfst]
        exact (hperm.map Prod.fst).mem_iff
      · -- An entry of the result comes from the entry with its key.
        obtain ⟨w, hw, rfl⟩ := Value.mem_normEntries.mp hu
        obtain ⟨v, hmem, rfl⟩ := Value.mem_normEntries.mp hu'
        obtain ⟨⟨key', v'⟩, hmem', ⟨rfl, -⟩, hsame⟩ := Value.forall₂_mem_right hkws hw
        rw [Value.eq_of_mem_entries hkeys hmem (hperm.mem_iff.mp hmem')]
        exact hsame
  | ndarray shape dtype data =>
    obtain ⟨hrank, hshape⟩ := hs.here
    exact ⟨_, Value.trip_ndarray hrank hshape hv.here, .refl _⟩
  | _ => exact ⟨_, rfl, .refl _⟩

/-- The metadata that an insertion makes of a value can be read back. -/
theorem exists_metadataValue (v : Value) (hv : v.Valid) (hs : v.Small) :
    ∃ w, metadataValue (some v.toNlohmannJson) = .ok w :=
  (metadataValue_same v hv hs).imp fun _ h => h.1

/-- The map that the operator makes of a result. -/
def RetrieveResult.output (result : RetrieveResult) : Except Fault Value := do
  let metadata ← metadataValue result.metadata
  return .map [("id", .string result.id), ("document", .string result.document),
    ("metadata", metadata), ("similarity", .float (UInt32.ofNat result.similarity))]

section Operator

variable (getType : Value → String)

/-- `top_k` as a `uint64_t`. -/
def readTopK : Value → Except ErrorOutput UInt64
  | .uint topK => .ok topK
  | .int topK => .ok topK.toUInt64
  | v => .error (.typeError "vector_store.retrieve" "top_k" "uint_t | int_t" (getType v))

/-- `retrieve` of `create_vector_store_component`, for a component with the store `s`. -/
def FaissStore.retrieveOp (s : FaissStore F) :
    Value → FaissStore F × Except Fault (Except ErrorOutput Value)
  | .map inputs =>
    match inputs.lookup "query_embedding" with
    | none => (s, .ok (.error (.rangeError "vector_store.retrieve" "query_embedding")))
    | some (.ndarray shape dtype data) =>
      match inputs.lookup "top_k" with
      | none => (s, .ok (.error (.rangeError "vector_store.retrieve" "query_embedding")))
      | some v =>
        match readTopK getType v with
        | .error e => (s, .ok (.error e))
        | .ok topK =>
          match s.retrieve ⟨shape, dtype, data⟩ topK with
          | (s, .error f) => (s, .error f)
          | (s, .ok results) => (s, do
              let results ← results.mapM RetrieveResult.output
              return .ok (.map [("results", .array results)]))
    | some v =>
      (s, .ok (.error
        (.typeError "vector_store.retrieve" "query_embedding" "ndarray_t" (getType v))))
  | v => (s, .ok (.error (.typeError "vector_store.retrieve" "inputs" "map_t" (getType v))))

end Operator

/-! ## What was inserted -/

/-- The inputs of a call that inserts. -/
def StoreAct.inputs : StoreAct → List AddInput
  | .addVector input => [input]
  | .addVectors inputs => inputs
  | _ => []

/-- The inputs that a call inserted, with the ids that it returned for them. -/
def StoreAct.entries : StoreAct → Except Fault StoreReply → List (String × AddInput)
  | .addVector input, .ok (.id k) => [(k, input)]
  | .addVectors inputs, .ok (.ids ks) => ks.zip inputs
  | _, _ => []

/-- The inputs that a run of calls inserts, with their ids. -/
def FaissStore.inserted (s : FaissStore F) : List StoreAct → List (String × AddInput)
  | [] => []
  | act :: acts => act.entries (s.step act).2 ++ (s.step act).1.inserted acts

/-- The ids of the index are among the first `n` numbers, each of them once as long as these differ,
and each has the document of an input that was inserted under it. -/
structure Stocked (n : ℕ) (log : List (String × AddInput)) (rows : List (Int64 × List ℕ))
    (documents : UnorderedMap Int64 Document) (counter : Int64) : Prop where
  counter : counter = nthId n
  ids : ∀ i ∈ rows.map Prod.fst, ∃ j < n, i = nthId j
  nodup : n ≤ 2 ^ 64 → (rows.map Prod.fst).Nodup
  inserted : ∀ i ∈ rows.map Prod.fst, ∃ input, (int64ToString i, input) ∈ log ∧
    documents.lookup i = some ⟨input.document, input.metadata⟩

namespace Stocked

variable {n n' : ℕ} {log log' : List (String × AddInput)} {rows : List (Int64 × List ℕ)}
  {documents documents' : UnorderedMap Int64 Document} {counter counter' : Int64}

/-- Numbers that are drawn for nothing do no harm. -/
theorem skip (h : Stocked n log rows documents counter) (hle : n ≤ n')
    (hcounter : counter' = nthId n') : Stocked n' log rows documents counter' where
  counter := hcounter
  ids := fun i hi => by
    obtain ⟨j, hj, hij⟩ := h.ids i hi
    exact ⟨j, by omega, hij⟩
  nodup := fun hn => h.nodup (by omega)
  inserted := h.inserted

/-- Documents under other ids do no harm. -/
theorem congr (h : Stocked n log rows documents counter)
    (hdocuments : ∀ i, (documents.lookup i).isSome = true → documents'.lookup i = documents.lookup i) :
    Stocked n log rows documents' counter where
  counter := h.counter
  ids := h.ids
  nodup := h.nodup
  inserted := fun i hi => by
    obtain ⟨input, hlog, hdocument⟩ := h.inserted i hi
    exact ⟨input, hlog, by rw [hdocuments i (Option.isSome_of_eq_some hdocument), hdocument]⟩

/-- One more vector with its document. -/
theorem insertOne (h : Stocked n log rows documents counter) (row : List ℕ) (input : AddInput) :
    Stocked (n + 1) (log ++ [(int64ToString counter, input)]) (rows ++ [(counter, row)])
      (documents.insert counter ⟨input.document, input.metadata⟩) (counter + 1) where
  counter := by rw [h.counter, nthId_succ]
  ids := fun i hi => by
    rw [List.map_append, List.mem_append] at hi
    rcases hi with hi | hi
    · obtain ⟨j, hj, hij⟩ := h.ids i hi
      exact ⟨j, by omega, hij⟩
    · exact ⟨n, by omega, (List.mem_singleton.mp hi).trans h.counter⟩
  nodup := fun hn => by
    rw [List.map_append, List.nodup_append]
    refine ⟨h.nodup (by omega), List.nodup_singleton _, fun i hi j hj hij => ?_⟩
    -- The counter has not been an id before.
    obtain ⟨k, hk, hik⟩ := h.ids i hi
    rw [hij, List.mem_singleton.mp hj] at hik
    have := nthId_inj (by omega) (by omega) (h.counter.symm.trans hik)
    omega
  inserted := fun i hi => by
    rw [List.map_append, List.mem_append] at hi
    by_cases hnew : i = counter
    · refine ⟨input, List.mem_append_right _ (List.mem_singleton.mpr ?_), ?_⟩
      · rw [hnew]
      · rw [hnew]
        exact AList.lookup_insert _
    · obtain ⟨old, hlog, hdocument⟩ :=
        h.inserted i (hi.resolve_right fun h => hnew (List.mem_singleton.mp h))
      exact ⟨old, List.mem_append_left _ hlog, by rw [AList.lookup_insert_ne hnew, hdocument]⟩

/-- The vectors that stay when some are removed, with their documents. -/
theorem filter (h : Stocked n log rows documents counter) {p : Int64 → Bool}
    (hdocuments : ∀ i, p i = false → documents'.lookup i = documents.lookup i) :
    Stocked n log (rows.filter fun r => !p r.1) documents' counter := by
  have hmem : ∀ i ∈ (rows.filter fun r => !p r.1).map Prod.fst,
      i ∈ rows.map Prod.fst ∧ p i = false := by
    intro i hi
    obtain ⟨r, hr, rfl⟩ := List.mem_map.mp hi
    obtain ⟨hr, hstay⟩ := List.mem_filter.mp hr
    exact ⟨List.mem_map_of_mem hr, by simpa using hstay⟩
  refine ⟨h.counter, fun i hi => h.ids i (hmem i hi).1,
    fun hn => (h.nodup hn).sublist (List.filter_sublist.map _), fun i hi => ?_⟩
  obtain ⟨input, hlog, hdocument⟩ := h.inserted i (hmem i hi).1
  exact ⟨input, hlog, by rw [hdocuments i (hmem i hi).2, hdocument]⟩

end Stocked

namespace FaissStore

variable {n : ℕ} {log : List (String × AddInput)} {s : FaissStore F} {doc : F.Documented}

/-- What holds of the rows, the documents and the counter of a store. -/
def IsStocked (doc : F.Documented) (n : ℕ) (log : List (String × AddInput)) (s : FaissStore F) :
    Prop :=
  Stocked n log (doc.rows s.index) s.documentStore s.idCounter

/-- The loops of `add_vectors` put a vector and its document under each of the ids. -/
theorem takeRows_stocked (inputs : List AddInput) {rows : List (Int64 × List ℕ)}
    {documents : UnorderedMap Int64 Document}
    (h : Stocked n log rows documents s.idCounter) :
    (∃ n' f, n ≤ n' ∧ n' ≤ n + inputs.length ∧
      s.takeRows inputs = ({ s with idCounter := nthId n' }, .error f)) ∨
    ∃ rs, s.takeRows inputs = ({ s with idCounter := nthId (n + inputs.length) }, .ok rs) ∧
      Stocked (n + inputs.length) (log ++ ((rs.map Prod.fst).map int64ToString).zip inputs)
        (rows ++ rs) (putDocuments documents (rs.map Prod.fst) inputs)
        (nthId (n + inputs.length)) := by
  induction inputs generalizing s n log rows documents with
  | nil =>
    refine .inr ⟨[], ?_, ?_⟩
    · show (s, _) = _
      rw [List.length_nil, Nat.add_zero, ← h.counter]
    · show Stocked (n + 0) (log ++ []) (rows ++ []) documents (nthId (n + 0))
      rw [List.append_nil, List.append_nil, Nat.add_zero, ← h.counter]
      exact h
  | cons input inputs ih =>
    rw [takeRows_cons, List.length_cons]
    cases hread : s.row input.embedding with
    | error f =>
      -- The id is drawn before the embedding is read, so no vector has it.
      refine .inl ⟨n + 1, f, by omega, by omega, ?_⟩
      rw [h.counter, nthId_succ]
    | ok row =>
      dsimp only
      have hnext := h.insertOne row input
      have hsum : n + 1 + inputs.length = n + (inputs.length + 1) := by omega
      rcases ih (s := { s with idCounter := s.idCounter + 1 }) hnext with
        ⟨n', f, hle, hle', htake⟩ | ⟨rs, htake, hrest⟩
      · refine .inl ⟨n', f, by omega, by omega, ?_⟩
        rw [htake]
      · rw [hsum] at htake hrest
        refine .inr ⟨(s.idCounter, row) :: rs, ?_, ?_⟩
        · rw [htake]
        · rw [List.append_assoc, List.append_assoc] at hrest
          exact hrest

/-- Looking a document up leaves those that are there. -/
theorem lookup_documentAt (documents : UnorderedMap Int64 Document) (j : Int64) {i : Int64}
    (hi : (documents.lookup i).isSome = true) :
    (documentAt documents j).1.lookup i = documents.lookup i := by
  obtain ⟨document, hdocument⟩ := Option.isSome_iff_exists.mp hi
  unfold documentAt UnorderedMap.insertNew
  cases hj : documents.lookup j with
  | some other => rfl
  | none =>
    have hne : i ≠ j := by
      rintro rfl
      rw [hj] at hdocument
      cases hdocument
    exact AList.lookup_insert_ne hne

/-- Reading results leaves the documents that are there. -/
theorem lookup_readResults (documents : UnorderedMap Int64 Document) (found : List (Int64 × ℕ))
    {i : Int64} (hi : (documents.lookup i).isSome = true) :
    (readResults documents found).1.lookup i = documents.lookup i := by
  induction found generalizing documents with
  | nil => rfl
  | cons f found ih =>
    have hfirst := lookup_documentAt documents f.1 hi
    have hrest := ih (documentAt documents f.1).1 (by rw [hfirst]; exact hi)
    exact hrest.trans hfirst

/-- `get_by_id` and `retrieve` leave the vectors, the counter, and the documents that are there. -/
theorem step_read (s : FaissStore F) {act : StoreAct} (h : act.isRead = true) :
    ∃ documents, (s.step act).1 = { s with documentStore := documents } ∧
      ∀ i, (s.documentStore.lookup i).isSome = true →
        documents.lookup i = s.documentStore.lookup i := by
  cases act with
  | getById k =>
    show ∃ documents, (s.getById k).1 = _ ∧ _
    unfold getById
    dsimp only
    cases F.reconstruct s.index (strtoll k) with
    | none => exact ⟨_, rfl, fun i _ => rfl⟩
    | some row => exact ⟨_, rfl, fun i => lookup_documentAt _ _⟩
  | retrieve q topK =>
    show ∃ documents, (s.retrieve q topK).1 = _ ∧ _
    -- The documents are touched in the last branch only.
    have hsame : ∃ documents, s = { s with documentStore := documents } ∧
        ∀ i, (s.documentStore.lookup i).isSome = true →
          documents.lookup i = s.documentStore.lookup i := ⟨_, rfl, fun i _ => rfl⟩
    by_cases hvalid : s.isValidEmbedding q = true
    · rw [retrieve_eq hvalid]
      by_cases hlarge : 2 ^ 63 ≤ topK.toNat
      · rw [if_pos hlarge]
        exact hsame
      rw [if_neg hlarge]
      by_cases hzero : min (F.ntotal s.index) topK.toNat = 0
      · rw [if_pos hzero]
        exact hsame
      rw [if_neg hzero]
      cases s.row q with
      | error f => exact hsame
      | ok row =>
        dsimp only
        by_cases hloop : 2 ^ 31 ≤ min (F.ntotal s.index) topK.toNat
        · rw [if_pos hloop]
          exact hsame
        · rw [if_neg hloop]
          exact ⟨_, rfl, fun i => lookup_readResults _ _⟩
    · unfold retrieve
      rw [if_neg hvalid]
      exact hsame
  | addVector input => cases h
  | addVectors inputs => cases h
  | removeVector k => cases h
  | clear => cases h

/-- `add_vector`. -/
theorem IsStocked.addVector (h : s.IsStocked doc n log) (input : AddInput) :
    ∃ n' ≤ n + 1, (s.step (.addVector input)).1.IsStocked doc n'
      (log ++ StoreAct.entries (.addVector input) (s.step (.addVector input)).2) := by
  show ∃ n' ≤ n + 1, (s.addVector input).1.IsStocked doc n'
    (log ++ StoreAct.entries (.addVector input) ((s.addVector input).2.map .id))
  by_cases hvalid : s.isValidEmbedding input.embedding = true
  · rw [addVector_eq hvalid]
    cases s.row input.embedding with
    | error f =>
      refine ⟨n + 1, le_rfl, ?_⟩
      have hnone : log ++ StoreAct.entries (.addVector input) (.error f) = log := List.append_nil log
      exact hnone.symm ▸ h.skip (Nat.le_succ n) (by rw [h.counter, nthId_succ])
    | ok row =>
      refine ⟨n + 1, le_rfl, ?_⟩
      have hadd := h.insertOne row input
      rw [← doc.rows_add] at hadd
      exact hadd
  · unfold FaissStore.addVector
    rw [if_neg hvalid]
    exact ⟨n, Nat.le_succ n, (List.append_nil log).symm ▸ h⟩

/-- `add_vectors`. -/
theorem IsStocked.addVectors (h : s.IsStocked doc n log) (inputs : List AddInput) :
    ∃ n' ≤ n + inputs.length, (s.step (.addVectors inputs)).1.IsStocked doc n'
      (log ++ StoreAct.entries (.addVectors inputs) (s.step (.addVectors inputs)).2) := by
  show ∃ n' ≤ n + inputs.length, (s.addVectors inputs).1.IsStocked doc n'
    (log ++ StoreAct.entries (.addVectors inputs) ((s.addVectors inputs).2.map .ids))
  by_cases hvalid : ∀ input ∈ inputs, s.isValidEmbedding input.embedding = true
  · rw [addVectors_eq hvalid]
    rcases takeRows_stocked inputs h with ⟨n', f, hle, hle', htake⟩ | ⟨rs, htake, hrest⟩
    · rw [htake]
      exact ⟨n', hle', (List.append_nil log).symm ▸ h.skip hle rfl⟩
    · rw [htake]
      rw [← doc.rows_add] at hrest
      exact ⟨n + inputs.length, le_rfl, hrest⟩
  · obtain ⟨input, hin, hinvalid⟩ : ∃ input ∈ inputs,
        ¬ s.isValidEmbedding input.embedding = true := by simpa using hvalid
    obtain ⟨what, hrefuse⟩ := s.addVectors_refuses hin hinvalid
    rw [hrefuse]
    exact ⟨n, Nat.le_add_right n _, (List.append_nil log).symm ▸ h⟩

/-- One call of any kind. -/
theorem IsStocked.step (h : s.IsStocked doc n log) (act : StoreAct) :
    ∃ n' ≤ n + act.inputs.length,
      (s.step act).1.IsStocked doc n' (log ++ act.entries (s.step act).2) := by
  have hread : ∀ act : StoreAct, act.isRead = true →
      (s.step act).1.IsStocked doc n log := by
    intro act hact
    obtain ⟨documents, hstep, hdocuments⟩ := step_read s hact
    rw [hstep]
    exact h.congr hdocuments
  cases act with
  | addVector input => exact h.addVector input
  | addVectors inputs => exact h.addVectors inputs
  | getById k => exact ⟨n, le_rfl, (List.append_nil log).symm ▸ hread (.getById k) rfl⟩
  | retrieve q topK => exact ⟨n, le_rfl, (List.append_nil log).symm ▸ hread (.retrieve q topK) rfl⟩
  | removeVector k =>
    refine ⟨n, le_rfl, (List.append_nil log).symm ▸ ?_⟩
    show Stocked n log (doc.rows (s.removeVector k).index) _ _
    unfold FaissStore.removeVector
    dsimp only
    rw [doc.rows_remove]
    refine h.filter (p := fun j => decide (j = strtoll k)) fun i hi => ?_
    exact AList.lookup_erase_ne (of_decide_eq_false hi)
  | clear =>
    refine ⟨n, le_rfl, (List.append_nil log).symm ▸ ?_⟩
    show Stocked n log (doc.rows s.clear.index) _ _
    unfold FaissStore.clear
    dsimp only
    rw [doc.rows_remove]
    exact h.filter (p := fun _ => true) fun i hi => absurd hi.symm Bool.false_ne_true

/-- A run of calls. -/
theorem IsStocked.after (h : s.IsStocked doc n log) (acts : List StoreAct) :
    ∃ n' ≤ n + (acts.map fun act => act.inputs.length).sum,
      (s.after acts).IsStocked doc n' (log ++ s.inserted acts) := by
  induction acts generalizing s n log with
  | nil => exact ⟨n, le_rfl, (List.append_nil log).symm ▸ h⟩
  | cons act acts ih =>
    obtain ⟨n₁, hle₁, h₁⟩ := h.step act
    obtain ⟨n', hle, h'⟩ := ih h₁
    refine ⟨n', ?_, ?_⟩
    · rw [List.map_cons, List.sum_cons]
      omega
    · rw [List.append_assoc] at h'
      exact h'

/-- A new store. -/
theorem make_isStocked (doc : F.Documented) (d : ℕ) : (make F d).IsStocked doc 0 [] := by
  show Stocked 0 [] (doc.rows (F.make d)) ∅ 0
  rw [doc.rows_make]
  exact ⟨rfl, by simp, fun _ => List.nodup_nil, by simp⟩

/-- Every store that calls reach. -/
theorem after_isStocked (doc : F.Documented) (d : ℕ) (acts : List StoreAct) :
    ∃ n ≤ (acts.map fun act => act.inputs.length).sum,
      ((make F d).after acts).IsStocked doc n ((make F d).inserted acts) := by
  obtain ⟨n, hle, h⟩ := (make_isStocked doc d).after acts
  rw [Nat.zero_add] at hle
  exact ⟨n, hle, h⟩

end FaissStore

/-! ## The results -/

/-- What the operator returns for the id `i`: the document and the metadata of an input that was
inserted under it. -/
def ResultFor (log : List (String × AddInput)) (i : Int64) (out : Value) : Prop :=
  ∃ input metadata similarity, (int64ToString i, input) ∈ log ∧
    metadataValue input.metadata = .ok metadata ∧
    out = .map [("id", .string (int64ToString i)), ("document", .string input.document),
      ("metadata", metadata), ("similarity", .float similarity)]

/-- The operator changes nothing and returns as many results as it is asked for or as there are
vectors, each of another id of the index. -/
def RetrievesExactly (doc : F.Documented) (log : List (String × AddInput)) (s : FaissStore F)
    (topK : ℤ) (reply : FaissStore F × Except Fault (Except ErrorOutput Value)) : Prop :=
  ∃ ids outs, reply = (s, .ok (.ok (.map [("results", .array outs)]))) ∧
    (ids.length : ℤ) = min (max topK 0) (doc.rows s.index).length ∧ ids.Nodup ∧
    (∀ i ∈ ids, i ∈ (doc.rows s.index).map Prod.fst) ∧ List.Forall₂ (ResultFor log) ids outs

namespace FaissStore

variable {n : ℕ} {log : List (String × AddInput)} {s : FaissStore F} {doc : F.Documented}

/-- What is read for ids of the index, when the metadata of all inputs can be read back. -/
theorem readResults_stocked (h : s.IsStocked doc n log)
    (hmetadata : ∀ e ∈ log, ∃ metadata, metadataValue e.2.metadata = .ok metadata)
    {found : List (Int64 × ℕ)} (hfound : ∀ r ∈ found, r.1 ∈ (doc.rows s.index).map Prod.fst) :
    ∃ results outs, readResults s.documentStore found = (s.documentStore, results) ∧
      results.mapM RetrieveResult.output = .ok outs ∧
      List.Forall₂ (ResultFor log) (found.map Prod.fst) outs := by
  induction found with
  | nil => exact ⟨[], [], rfl, rfl, .nil⟩
  | cons f found ih =>
    obtain ⟨hf, hrest⟩ := List.forall_mem_cons.mp hfound
    obtain ⟨results, outs, hread, houts, hresults⟩ := ih hrest
    obtain ⟨input, hlog, hdocument⟩ := h.inserted f.1 hf
    obtain ⟨metadata, hvalue⟩ := hmetadata _ hlog
    have houtput : RetrieveResult.output
        ⟨int64ToString f.1, input.document, input.metadata, f.2⟩ =
          .ok (.map [("id", .string (int64ToString f.1)), ("document", .string input.document),
            ("metadata", metadata), ("similarity", .float (UInt32.ofNat f.2))]) := by
      unfold RetrieveResult.output
      dsimp only
      rw [hvalue]
      rfl
    refine ⟨⟨int64ToString f.1, input.document, input.metadata, f.2⟩ :: results, _ :: outs, ?_, ?_,
      .cons ⟨input, metadata, UInt32.ofNat f.2, hlog, hvalue, rfl⟩ hresults⟩
    · rw [readResults, documentAt_of_mem hdocument]
      dsimp only
      rw [hread]
    · rw [List.mapM_cons, houtput, Except.ok_bind, houts]
      rfl

/-- `top_k` as a `uint64_t` is the integer modulo `2^64`. -/
theorem readTopK_of_integer (getType : Value → String) {v : Value} {topK : ℤ}
    (h : v.integer? = some topK) :
    ∃ k, readTopK getType v = .ok k ∧ k.toNat = wrap topK ∧ -2 ^ 63 ≤ topK ∧ topK < 2 ^ 64 := by
  cases v with
  | uint k =>
    obtain rfl := Option.some.inj h
    have hlt : k.toNat < 2 ^ 64 := k.toNat_lt
    exact ⟨k, rfl, (wrap_of_lt hlt).symm, by omega, by omega⟩
  | int k =>
    obtain rfl := Option.some.inj h
    have hle : -2 ^ 63 ≤ k.toInt := k.le_toInt
    have hlt : k.toInt < 2 ^ 63 := k.toInt_lt
    exact ⟨k.toUInt64, rfl, toNat_toUInt64_eq k, hle, by omega⟩
  | _ => cases h

/-- The operator on inputs that it accepts. -/
theorem retrieveOp_eq (getType : Value → String) (s : FaissStore F)
    {inputs : List (String × Value)} {q : Ndarray} {v : Value} {k : UInt64}
    (hquery : inputs.lookup "query_embedding" = some (.ndarray q.shape q.dtype q.data))
    (hv : inputs.lookup "top_k" = some v) (hk : readTopK getType v = .ok k) :
    s.retrieveOp getType (.map inputs) =
      match s.retrieve q k with
      | (s, .error f) => (s, .error f)
      | (s, .ok results) => (s, do
          let results ← results.mapM RetrieveResult.output
          return .ok (.map [("results", .array results)])) := by
  unfold retrieveOp
  simp only [hquery, hv, hk]

end FaissStore

/-- In a stocked store whose ids differ, with finite vectors and metadata that can be read back, the
operator returns what it is asked for if and only if the number that it is asked for is not negative
and below `2^63`, and the results are fewer than `2^31`. -/
theorem FaissStore.IsStocked.retrievesExactly_iff {n : ℕ} {log : List (String × AddInput)}
    {s : FaissStore F} {doc : F.Documented} (hstocked : s.IsStocked doc n log) (getType : Value → String)
    {d : ℕ} (hdim : F.d s.index = d) (hd : d < 2 ^ 31)
    (hnodup : ((doc.rows s.index).map Prod.fst).Nodup) {inputs : List (String × Value)} {q : Ndarray}
    {v : Value} {topK : ℤ}
    (hmetadata : ∀ e ∈ log, ∃ metadata, metadataValue e.2.metadata = .ok metadata)
    (hfinite : ∀ r ∈ doc.rows s.index, FiniteFloats r.2)
    (hq : q.IsEmbedding d) (hqfinite : FiniteFloats (q.floats d))
    (hquery : inputs.lookup "query_embedding" = some (.ndarray q.shape q.dtype q.data))
    (hv : inputs.lookup "top_k" = some v) (htopK : v.integer? = some topK) :
    RetrievesExactly doc log s topK (s.retrieveOp getType (.map inputs)) ↔
      0 ≤ topK ∧ topK < 2 ^ 63 ∧ min topK (doc.rows s.index).length < 2 ^ 31 := by
  obtain ⟨k, hk, hwrap, hlow, hhigh⟩ := FaissStore.readTopK_of_integer getType htopK
  obtain ⟨hvalid, hrow⟩ := FaissStore.row_of_isEmbedding hdim hd hq
  rw [FaissStore.retrieveOp_eq getType s hquery hv hk, FaissStore.retrieve_eq hvalid, doc.ntotal_eq]
  unfold wrap at hwrap
  by_cases hlarge : 2 ^ 63 ≤ k.toNat
  · -- The conversions make the number negative, and the vector of the results throws.
    rw [if_pos hlarge]
    refine iff_of_false ?_ (by omega)
    rintro ⟨ids, outs, hreply, -⟩
    cases (Prod.mk.inj hreply).2
  · rw [if_neg hlarge]
    have hcast : topK = k.toNat := by omega
    by_cases hzero : min (doc.rows s.index).length k.toNat = 0
    · rw [if_pos hzero]
      refine iff_of_true ⟨[], [], rfl, ?_, List.nodup_nil, by simp, .nil⟩ (by omega)
      rw [List.length_nil]
      omega
    · rw [if_neg hzero, hrow]
      dsimp only
      by_cases hloop : 2 ^ 31 ≤ min (doc.rows s.index).length k.toNat
      · -- The loop over the results overflows its `int`.
        rw [if_pos hloop]
        refine iff_of_false ?_ (by omega)
        rintro ⟨ids, outs, hreply, -⟩
        cases (Prod.mk.inj hreply).2
      · rw [if_neg hloop]
        refine iff_of_true ?_ (by omega)
        have hle : min (doc.rows s.index).length k.toNat ≤ (doc.rows s.index).length :=
          Nat.min_le_left _ _
        obtain ⟨results, outs, hread, houts, hresults⟩ := FaissStore.readResults_stocked hstocked
          hmetadata (doc.search_mem s.index _ _ hqfinite hfinite hle)
        dsimp only
        rw [hread]
        dsimp only
        rw [houts]
        refine ⟨_, outs, rfl, ?_, doc.search_nodup s.index _ _ hqfinite hfinite hle
          hnodup, fun i hi => ?_, hresults⟩
        · rw [List.length_map, doc.search_length]
          omega
        · obtain ⟨r, hr, rfl⟩ := List.mem_map.mp hi
          exact doc.search_mem s.index _ _ hqfinite hfinite hle r hr

/-- In every store that calls reach before the ids repeat, with finite vectors and metadata that can
be read back, the operator returns what it is asked for if and only if the number that it is asked
for is not negative and below `2^63`, and the results are fewer than `2^31`. -/
theorem retrieve_count_iff (doc : F.Documented) (getType : Value → String) {d : ℕ} (hd : d < 2 ^ 31)
    (acts : List StoreAct) {inputs : List (String × Value)} {q : Ndarray} {v : Value} {topK : ℤ}
    (hids : (acts.map fun act => act.inputs.length).sum ≤ 2 ^ 64)
    (hmetadata : ∀ e ∈ (FaissStore.make F d).inserted acts,
      ∃ metadata, metadataValue e.2.metadata = .ok metadata)
    (hfinite : ∀ r ∈ doc.rows ((FaissStore.make F d).after acts).index, FiniteFloats r.2)
    (hq : q.IsEmbedding d) (hqfinite : FiniteFloats (q.floats d))
    (hquery : inputs.lookup "query_embedding" = some (.ndarray q.shape q.dtype q.data))
    (hv : inputs.lookup "top_k" = some v) (htopK : v.integer? = some topK) :
    RetrievesExactly doc ((FaissStore.make F d).inserted acts) ((FaissStore.make F d).after acts) topK
        (((FaissStore.make F d).after acts).retrieveOp getType (.map inputs)) ↔
      0 ≤ topK ∧ topK < 2 ^ 63 ∧
        min topK (doc.rows ((FaissStore.make F d).after acts).index).length < 2 ^ 31 := by
  obtain ⟨n, hn, hstocked⟩ := FaissStore.after_isStocked doc d acts
  have hdim : F.d ((FaissStore.make F d).after acts).index = d :=
    (FaissStore.after_d doc _ acts).trans (doc.d_make d hd)
  exact hstocked.retrievesExactly_iff getType hdim hd (hstocked.nodup (by omega)) hmetadata hfinite hq
    hqfinite hquery hv htopK

/-- The inputs of `retrieve` with the query zero. -/
def zeroQuery (topK : Value) : Value :=
  .map [("query_embedding", .ndarray [1] float32 [0, 0, 0, 0]), ("top_k", topK)]

/-- One result of one vector. -/
theorem retrieve_count_iff_one :
    RetrievesExactly listLibrary_documented [("0", zeroInput)]
        ((FaissStore.make listLibrary 1).after [.addVector zeroInput]) 1
        (((FaissStore.make listLibrary 1).after [.addVector zeroInput]).retrieveOp (fun _ => "")
          (zeroQuery (.uint 1))) ↔
      (0 : ℤ) ≤ 1 ∧ (1 : ℤ) < 2 ^ 63 ∧ min (1 : ℤ) (1 : ℕ) < 2 ^ 31 :=
  retrieve_count_iff listLibrary_documented (fun _ => "") (by decide) [.addVector zeroInput]
    (q := bytesVector [0, 0, 0, 0]) (v := .uint 1) (by decide)
    (fun e he => ⟨.null, by rw [List.mem_singleton.mp he]; rfl⟩)
    (fun r hr => by rw [List.mem_singleton.mp hr]; decide) ⟨rfl, rfl, rfl⟩ (by decide) rfl rfl rfl

/-- With one vector, the operator throws when it is asked for `-1` results, and also when it is asked
for `2^63`. -/
theorem retrieve_throws :
    ¬ RetrievesExactly listLibrary_documented [("0", zeroInput)]
        ((FaissStore.make listLibrary 1).after [.addVector zeroInput]) (-1)
        (((FaissStore.make listLibrary 1).after [.addVector zeroInput]).retrieveOp (fun _ => "")
          (zeroQuery (.int (-1)))) ∧
      ¬ RetrievesExactly listLibrary_documented [("0", zeroInput)]
        ((FaissStore.make listLibrary 1).after [.addVector zeroInput]) (2 ^ 63)
        (((FaissStore.make listLibrary 1).after [.addVector zeroInput]).retrieveOp (fun _ => "")
          (zeroQuery (.uint 9223372036854775808))) := by
  have hthrows : ∀ topK, topK = .int (-1) ∨ topK = .uint 9223372036854775808 → ∃ what,
      (((FaissStore.make listLibrary 1).after [.addVector zeroInput]).retrieveOp (fun _ => "")
        (zeroQuery topK)).2 = .error (.exception what) := by
    rintro topK (rfl | rfl)
    · exact ⟨_, rfl⟩
    · exact ⟨_, rfl⟩
  constructor
  · rintro ⟨ids, outs, hreply, -⟩
    obtain ⟨what, hwhat⟩ := hthrows _ (.inl rfl)
    rw [hreply] at hwhat
    cases hwhat
  · rintro ⟨ids, outs, hreply, -⟩
    obtain ⟨what, hwhat⟩ := hthrows _ (.inr rfl)
    rw [hreply] at hwhat
    cases hwhat

end Ailoy
