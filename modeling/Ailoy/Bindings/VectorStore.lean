import Ailoy.Lib.Transition
import Ailoy.Vm.StoreOperators

/-!
# The vector store of the bindings

`VectorStore` of `bindings/python/ailoy/vector_store.py` and of `bindings/js-node/src/vector_store.ts`,
over the component of `create_vector_store_component` with the Faiss store. The name of a method goes
to the component as a string, and one that it does not have is refused by the broker. `served_of_careful`
says that the calls refine a plain list of documents: each of them succeeds, and a retrieval shows as
many of the documents as it is asked for. `clean` of Python names a method that is not there, so it
fails in every state. `Keeps` is the invariant: the index holds ids that were given one after the
other, from the number on that the counter had when the store was empty.

What the converters of the hosts and the wire do to a value is left out here: a metadata is the value
that arrives, and a non-negative integer arrives in one of two types that the operator reads alike.
-/

namespace Ailoy.VectorStore

open Transition

variable {F : FaissLibrary}

/-! ## The wrapper -/

/-- The binding that a caller uses. -/
inductive Binding
  | python
  | typescript
  deriving DecidableEq

/-- The `metadata` of an insertion: left away, `None` or `null`, or a map. -/
inductive Metadata
  | absent
  | null
  | map (kvs : List (String × Value)) (valid : (Value.map kvs).Valid)

/-- The metadata as it is passed on. In Python the default is `None`, and in TypeScript `undefined`
is converted to a null. -/
def Metadata.toValue : Metadata → Value
  | .absent => .null
  | .null => .null
  | .map kvs _ => .map kvs

/-- How a call fails. -/
inductive CallError
  /-- A `RuntimeError` or an `Error` with the reason of the response. -/
  | raised (reason : String)
  /-- The operator throws. -/
  | fault (f : Fault)
  /-- An argument has no `value_t`. -/
  | notConverted
  /-- The response does not have the form that is read. -/
  | invalid

/-- The methods of the component. -/
def methods : List (String × StoreOp) :=
  [("insert", .insert), ("insert_many", .insertMany), ("get_by_id", .getById),
    ("retrieve", .retrieve), ("remove", .remove), ("clear", .clear)]

/-- `call_method` of the runtime, for the component of the store `s`. -/
def callMethod (getType : Value → String) (s : FaissStore F) (name : String) (inputs : Value) :
    FaissStore F × Except CallError Value :=
  match methods.lookup name with
  | none => (s, .error (.raised "There is no channel can handle this request"))
  | some op =>
    match s.operator getType op inputs with
    | (s, .error f) => (s, .error (.fault f))
    | (s, .ok (.error e)) => (s, .error (.raised e.reason))
    | (s, .ok (.ok out)) => (s, .ok out)

/-- `top_k` as a value. Python refuses an integer that does not fit an `int64_t`, and `Int64Value` of
JavaScript takes the nearest one that does. -/
def topKValue : Binding → ℕ → Option Value
  | .python, k => if k < 2 ^ 63 then some (.int (Int64.ofNat k)) else none
  | .typescript, k => some (.int (Int64.ofNat (min k (2 ^ 63 - 1))))

/-- The embedding model, as a function from texts to finite vectors of the dimension `d`. -/
structure EmbeddingModel (d : ℕ) where
  embed : String → Ndarray
  isEmbedding (text : String) : (embed text).IsEmbedding d
  finite (text : String) : FiniteFloats ((embed text).floats d)

/-- `VectorStoreRetrieveItem` takes the item: its fields have their types. -/
def isRetrieveItem : Value → Bool
  | .map kvs =>
    (match kvs.lookup "id" with
      | some (.string _) => true
      | _ => false) &&
    (match kvs.lookup "document" with
      | some (.string _) => true
      | _ => false) &&
    (match kvs.lookup "metadata" with
      | none | some .null | some (.map _) => true
      | _ => false) &&
    (match kvs.lookup "similarity" with
      | some (.float _) | some (.double _) => true
      | _ => false)
  | _ => false

/-- `resp["results"]`, which Python validates. -/
def readItems (b : Binding) : Value → Except CallError (List Value)
  | .map resp =>
    match b, resp.lookup "results" with
    | .python, some (.array items) =>
      if items.all isRetrieveItem then .ok items else .error .invalid
    | .typescript, some (.array items) => .ok items
    | _, _ => .error .invalid
  | _ => .error .invalid

/-- The method that `clean` of Python and `clear` of TypeScript call. -/
def cleanMethod : Binding → String
  | .python => "clean"
  | .typescript => "clear"

/-- A call of the wrapper. -/
inductive Call
  | insert (document : String) (metadata : Metadata)
  | retrieve (query : String) (topK : ℕ)
  | clean

section Calls

variable {d : ℕ} (getType : Value → String) (b : Binding) (model : EmbeddingModel d)

/-- `insert`. -/
def insert (s : FaissStore F) (document : String) (metadata : Metadata) :
    FaissStore F × Except CallError (List Value) :=
  let embedding := model.embed document
  match callMethod getType s "insert" (.map [("embedding", embedding.value),
    ("document", .string document), ("metadata", metadata.toValue)]) with
  | (s, .error e) => (s, .error e)
  | (s, .ok _) => (s, .ok [])

/-- `retrieve`. -/
def retrieve (s : FaissStore F) (query : String) (topK : ℕ) :
    FaissStore F × Except CallError (List Value) :=
  let embedding := model.embed query
  match topKValue b topK with
  | none => (s, .error .notConverted)
  | some topK =>
    match callMethod getType s "retrieve"
      (.map [("query_embedding", embedding.value), ("top_k", topK)]) with
    | (s, .error e) => (s, .error e)
    | (s, .ok resp) => (s, readItems b resp)

/-- `clean` of Python, `clear` of TypeScript. -/
def clean (s : FaissStore F) : FaissStore F × Except CallError (List Value) :=
  match callMethod getType s (cleanMethod b) (.map []) with
  | (s, .error e) => (s, .error e)
  | (s, .ok _) => (s, .ok [])

/-- A call, with the items that it returns. -/
def call (s : FaissStore F) : Call → FaissStore F × Except CallError (List Value)
  | .insert document metadata => insert getType model s document metadata
  | .retrieve query topK => retrieve getType b model s query topK
  | .clean => clean getType b s

end Calls

/-! ## A plain collection of documents -/

/-- A document with its metadata. -/
structure Entry where
  document : String
  metadata : Metadata

/-- The documents behind a call, in the order of their insertion. -/
def Call.after (docs : List Entry) : Call → List Entry
  | .insert document metadata => docs ++ [⟨document, metadata⟩]
  | .retrieve _ _ => docs
  | .clean => []

/-- The item has the document and the metadata of the entry. -/
def Shows (item : Value) (e : Entry) : Prop :=
  ∃ kvs metadata, item = .map kvs ∧ kvs.lookup "document" = some (.string e.document) ∧
    kvs.lookup "metadata" = some metadata ∧ metadata.norm.Same e.metadata.toValue.norm

/-- What a plain collection of the documents `docs` answers: a retrieval shows as many documents as it
is asked for or as there are, each of them once. -/
def Answers (docs : List Entry) : Call → List Value → Prop
  | .insert _ _, items => items = []
  | .retrieve _ topK, items => ∃ places : List ℕ, places.length = min topK docs.length ∧
      places.Nodup ∧ List.Forall₂ (fun i item => ∃ e, docs[i]? = some e ∧ Shows item e) places items
  | .clean, items => items = []

section Runs

variable {d : ℕ} (getType : Value → String) (b : Binding) (model : EmbeddingModel d)

/-- The store, and the documents that were inserted since the last `clean`. -/
def step (st : FaissStore F × List Entry) (c : Call) : Option (FaissStore F × List Entry) :=
  some ((call getType b model st.1 c).1, c.after st.2)

/-- The call succeeds, with an answer of the plain collection. -/
def Served (st : FaissStore F × List Entry) (c : Call) : Prop :=
  ∃ items, (call getType b model st.1 c).2 = .ok items ∧ Answers st.2 c items

end Runs

/-- When a call is served: it is not `clean` of Python; there are fewer than `2^64` documents, and the
arrays in a metadata have ranks and dimensions below `2^32`; Python asks for less than `2^63`
documents; and fewer than `2^31` are returned. -/
def Careful (b : Binding) (st : FaissStore F × List Entry) : Call → Prop
  | .insert _ metadata => st.2.length < 2 ^ 64 ∧ metadata.toValue.Small
  | .retrieve _ topK => (b = .python → topK < 2 ^ 63) ∧ min topK st.2.length < 2 ^ 31
  | .clean => b ≠ .python

/-- The calls that Python never serves. -/
def Refused (b : Binding) : Call → Prop
  | .insert _ _ => False
  | .retrieve _ topK => b = .python ∧ 2 ^ 63 ≤ topK
  | .clean => b = .python

/-! ## The documents of the store -/

/-- The input that an insertion passes to the store. -/
def Entry.input {d : ℕ} (model : EmbeddingModel d) (e : Entry) : AddInput :=
  ⟨model.embed e.document, e.document, some e.metadata.toValue.toNlohmannJson⟩

/-- The inputs for the documents, with their ids. -/
def logOf {d : ℕ} (model : EmbeddingModel d) (base : ℕ) (docs : List Entry) :
    List (String × AddInput) :=
  docs.mapIdx fun i e => (int64ToString (nthId (base + i)), e.input model)

theorem logOf_append {d : ℕ} (model : EmbeddingModel d) (base : ℕ) (docs : List Entry) (e : Entry) :
    logOf model base (docs ++ [e]) =
      logOf model base docs ++ [(int64ToString (nthId (base + docs.length)), e.input model)] :=
  List.mapIdx_concat

/-- The store holds the documents, under the ids from the number `base` on. -/
structure Keeps (doc : F.Documented) {d : ℕ} (model : EmbeddingModel d) (base : ℕ) (s : FaissStore F)
    (docs : List Entry) : Prop where
  dim : F.d s.index = d
  ids : (doc.rows s.index).map Prod.fst = (List.range docs.length).map fun i => nthId (base + i)
  finite : ∀ r ∈ doc.rows s.index, FiniteFloats r.2
  stocked : s.IsStocked doc (base + docs.length) (logOf model base docs)
  length_le : docs.length ≤ 2 ^ 64
  small : ∀ e ∈ docs, e.metadata.toValue.Small

theorem Metadata.valid_toValue (metadata : Metadata) : metadata.toValue.Valid := by
  cases metadata with
  | map kvs valid => exact valid
  | absent => exact Value.everywhere_leaf trivial fun u hu => hu
  | null => exact Value.everywhere_leaf trivial fun u hu => hu

section Steps

variable {doc : F.Documented} {d base : ℕ} {model : EmbeddingModel d} {s : FaissStore F}
  {docs : List Entry} (getType : Value → String) (b : Binding)

/-- The operator reads the input that the wrapper passes. -/
theorem readAddInput_insert (a : Ndarray) (document : String) (metadata : Metadata) :
    readAddInput getType "vector_store.insert" "" [("embedding", a.value),
        ("document", .string document), ("metadata", metadata.toValue)] =
      .ok (.ok ⟨a, document, some metadata.toValue.toNlohmannJson⟩) := by
  cases metadata with
  | absent => rfl
  | null => rfl
  | map kvs valid => rfl

theorem topKValue_eq {b : Binding} {k : ℕ} (h : b = .python → k < 2 ^ 63) :
    topKValue b k = some (.int (Int64.ofNat (min k (2 ^ 63 - 1)))) := by
  cases b with
  | typescript => rfl
  | python =>
    have hk := h rfl
    rw [topKValue, if_pos hk, Nat.min_eq_left (by omega)]

/-- A call of a method that the component has. -/
theorem callMethod_eq (s : FaissStore F) (name : String) {op : StoreOp}
    (hname : methods.lookup name = some op) (inputs : Value) :
    callMethod getType s name inputs =
      match s.operator getType op inputs with
      | (s, .error f) => (s, .error (.fault f))
      | (s, .ok (.error e)) => (s, .error (.raised e.reason))
      | (s, .ok (.ok out)) => (s, .ok out) := by
  rw [callMethod, hname]

/-- The store behind an insertion. -/
theorem insert_eq (hdim : F.d s.index = d) (hd : d < 2 ^ 31) (e : Entry) :
    VectorStore.insert getType model s e.document e.metadata =
      (⟨F.addWithIds s.index [(s.idCounter, (model.embed e.document).floats d)], s.idCounter + 1,
        s.documentStore.insert s.idCounter ⟨e.document, some e.metadata.toValue.toNlohmannJson⟩⟩,
        .ok []) := by
  obtain ⟨hvalid, hrow⟩ : s.isValidEmbedding (e.input model).embedding = true ∧
      s.row (e.input model).embedding = .ok ((model.embed e.document).floats d) :=
    FaissStore.row_of_isEmbedding hdim hd (model.isEmbedding e.document)
  have hadd : s.addVector (e.input model) = (⟨F.addWithIds s.index [(s.idCounter,
      (model.embed e.document).floats d)], s.idCounter + 1, s.documentStore.insert s.idCounter
        ⟨e.document, some e.metadata.toValue.toNlohmannJson⟩⟩, .ok (int64ToString s.idCounter)) := by
    rw [FaissStore.addVector_eq hvalid, hrow]
    rfl
  have hcall : VectorStore.insert getType model s e.document e.metadata =
      ((s.addVector (e.input model)).1, .ok []) := by
    have hread : readAddInput getType "vector_store.insert" ""
        [("embedding", (model.embed e.document).value), ("document", .string e.document),
          ("metadata", e.metadata.toValue)] = .ok (.ok (e.input model)) :=
      readAddInput_insert getType _ _ _
    have hop : s.operator getType .insert (.map [("embedding", (model.embed e.document).value),
        ("document", .string e.document), ("metadata", e.metadata.toValue)]) =
        ((s.addVector (e.input model)).1, .ok (.ok (.map [("id",
          .string (int64ToString s.idCounter))]))) := by
      rw [FaissStore.operator, FaissStore.insertOp, hread]
      dsimp only
      rw [hadd]
    rw [VectorStore.insert, callMethod_eq getType s "insert" rfl, hop]
  rw [hcall, hadd]

namespace Keeps

/-- The index has a row for each document. -/
theorem length_rows (h : Keeps doc model base s docs) :
    (doc.rows s.index).length = docs.length := by
  have hmap := congrArg List.length h.ids
  simpa using hmap

/-- The metadata of each document can be read back. -/
theorem exists_metadata (h : Keeps doc model base s docs) :
    ∀ e ∈ logOf model base docs, ∃ metadata, metadataValue e.2.metadata = .ok metadata := by
  intro r hr
  obtain ⟨k, hk, rfl⟩ := List.mem_mapIdx.mp hr
  exact exists_metadataValue _ (Metadata.valid_toValue _) (h.small _ (List.getElem_mem hk))

/-- The ids differ. -/
theorem nodup (h : Keeps doc model base s docs) : ((doc.rows s.index).map Prod.fst).Nodup := by
  rw [h.ids]
  refine List.Nodup.map_on (fun j hj k hk heq => ?_) List.nodup_range
  rw [List.mem_range] at hj hk
  have hle := h.length_le
  exact nthId_add_inj base (by omega) (by omega) heq

/-- One document more. -/
theorem insert (h : Keeps doc model base s docs) (hd : d < 2 ^ 31) (e : Entry)
    (hlt : docs.length < 2 ^ 64) (hsmall : e.metadata.toValue.Small) :
    (VectorStore.insert getType model s e.document e.metadata).2 = .ok [] ∧
      Keeps doc model base (VectorStore.insert getType model s e.document e.metadata).1
        (docs ++ [e]) := by
  rw [insert_eq getType h.dim hd]
  refine ⟨rfl, (doc.d_add _ _).trans h.dim, ?_, ?_, ?_, ?_, ?_⟩
  · dsimp only
    rw [doc.rows_add, List.map_append, h.ids, List.length_append, List.length_singleton,
      List.range_succ, List.map_append, h.stocked.counter]
    rfl
  · dsimp only
    rw [doc.rows_add]
    intro r hr
    rcases List.mem_append.mp hr with hr | hr
    · exact h.finite r hr
    · rw [List.mem_singleton.mp hr]
      exact model.finite e.document
  · have hone := h.stocked.insertOne ((model.embed e.document).floats d) (e.input model)
    rw [h.stocked.counter, ← logOf_append, ← doc.rows_add] at hone
    rw [List.length_append, h.stocked.counter]
    exact hone
  · rw [List.length_append, List.length_singleton]
    omega
  · intro e' he'
    rcases List.mem_append.mp he' with he' | he'
    · exact h.small e' he'
    · rw [List.mem_singleton.mp he']
      exact hsmall

/-- What the operator returns for an id shows the document with this id, and the wrapper takes it. -/
theorem shows (h : Keeps doc model base s docs) {j : ℕ} (hj : j < docs.length) {out : Value}
    (hout : ResultFor (logOf model base docs) (nthId (base + j)) out) :
    (∃ e, docs[j]? = some e ∧ Shows out e) ∧ isRetrieveItem out = true := by
  obtain ⟨input, metadata, similarity, hmem, hmetadata, rfl⟩ := hout
  obtain ⟨k, hk, hentry⟩ := List.mem_mapIdx.mp hmem
  have hle := h.length_le
  obtain ⟨hid, hinput⟩ := Prod.mk.inj hentry
  obtain rfl : k = j := nthId_add_inj base (by omega) (by omega) (int64ToString_injective hid)
  have hlookup : docs[k]? = some docs[k] := List.getElem?_eq_getElem hk
  generalize docs[k] = e at hlookup hinput
  have hsmall := h.small e (List.mem_of_getElem? hlookup)
  rw [← hinput] at hmetadata ⊢
  obtain ⟨w, hw, hsame⟩ := metadataValue_same _ e.metadata.valid_toValue hsmall
  obtain rfl : w = metadata := Except.ok.inj (hw.symm.trans hmetadata)
  refine ⟨⟨e, hlookup, _, w, rfl, rfl, rfl, hsame⟩, ?_⟩
  -- The metadata that is read back is a null or a map, as the one that was inserted.
  have hkind : w = .null ∨ ∃ kvs, w = .map kvs := by
    cases hm : e.metadata with
    | absent =>
      rw [hm] at hw
      exact .inl (Except.ok.inj hw).symm
    | null =>
      rw [hm] at hw
      exact .inl (Except.ok.inj hw).symm
    | map kvs valid =>
      rw [hm] at hw
      obtain ⟨kvs', -, heq⟩ := Except.map_eq_ok_iff.mp hw
      exact .inr ⟨kvs', heq.symm⟩
  rcases hkind with rfl | ⟨kvs, rfl⟩
  · rfl
  · rfl

/-- A retrieval that passes the conversions. -/
theorem retrieve (h : Keeps doc model base s docs) (hd : d < 2 ^ 31) (query : String) {topK : ℕ}
    (hpython : b = .python → topK < 2 ^ 63) (hcount : min topK docs.length < 2 ^ 31) :
    (∃ items, VectorStore.retrieve getType b model s query topK = (s, .ok items) ∧
      Answers docs (.retrieve query topK) items) := by
  have htopK := topKValue_eq hpython
  have hlen := h.length_rows
  have hinteger : (Value.int (Int64.ofNat (min topK (2 ^ 63 - 1)))).integer? =
      some ((min topK (2 ^ 63 - 1) : ℕ) : ℤ) := congrArg some (Int64.toInt_ofNat_of_lt (by omega))
  have hquery : List.lookup "query_embedding" [("query_embedding", (model.embed query).value),
      ("top_k", .int (Int64.ofNat (min topK (2 ^ 63 - 1))))] =
        some (.ndarray (model.embed query).shape (model.embed query).dtype (model.embed query).data) :=
    rfl
  obtain ⟨ids, outs, hreply, hreturned, hnodup, hids, houts⟩ :=
    (h.stocked.retrievesExactly_iff getType h.dim hd h.nodup h.exists_metadata h.finite
      (model.isEmbedding query) (model.finite query) hquery rfl hinteger).mpr (by omega)
  -- The ids stand for places in the list.
  obtain ⟨places, hplaces⟩ : ∃ places, List.Forall₂
      (fun i j => j < docs.length ∧ i = nthId (base + j)) ids places := by
    refine Value.exists_forall₂ fun i hi => ?_
    have hmem := hids i hi
    rw [h.ids] at hmem
    obtain ⟨j, hj, rfl⟩ := List.mem_map.mp hmem
    exact ⟨j, List.mem_range.mp hj, rfl⟩
  have hmap : ids = places.map fun j => nthId (base + j) := by
    have heq : List.Forall₂ (fun i j => i = nthId (base + j)) ids places :=
      hplaces.imp fun _ _ h => h.2
    rw [← List.forall₂_eq_eq_eq, List.forall₂_map_right_iff]
    exact heq
  have hlt : ∀ j ∈ places, j < docs.length := by
    intro j hj
    obtain ⟨i, -, hij, -⟩ := Value.forall₂_mem_right hplaces hj
    exact hij
  rw [hmap, List.forall₂_map_left_iff] at houts
  have hshows : List.Forall₂ (fun j out => (∃ e, docs[j]? = some e ∧ Shows out e) ∧
      isRetrieveItem out = true) places outs := by
    refine ((List.forall₂_and_left _ _).mpr ⟨hlt, houts⟩).imp fun j out hj => ?_
    exact h.shows hj.1 hj.2
  have hop : s.operator getType .retrieve (.map [("query_embedding", (model.embed query).value),
      ("top_k", .int (Int64.ofNat (min topK (2 ^ 63 - 1))))]) =
        (s, .ok (.ok (.map [("results", .array outs)]))) := hreply
  have hitems : readItems b (.map [("results", .array outs)]) = .ok outs := by
    have hall : outs.all isRetrieveItem = true := by
      rw [List.all_eq_true]
      intro out hout
      obtain ⟨j, -, hj⟩ := Value.forall₂_mem_right hshows hout
      exact hj.2
    cases b with
    | typescript => rfl
    | python => exact if_pos hall
  refine ⟨outs, ?_, places, ?_, ?_, hshows.imp fun j out hj => hj.1⟩
  · rw [VectorStore.retrieve, htopK]
    dsimp only
    rw [callMethod_eq getType s "retrieve" rfl, hop]
    dsimp only
    rw [hitems]
  · rw [hmap, List.length_map, hlen] at hreturned
    omega
  · rw [hmap] at hnodup
    exact hnodup.of_map

/-- Nothing is left behind a `clear`, whose ids go on where they are. -/
theorem clear (h : Keeps doc model base s docs) :
    Keeps doc model (base + docs.length) s.clear [] := by
  have hrows : doc.rows s.clear.index = [] := by
    unfold FaissStore.clear
    dsimp only
    rw [doc.rows_remove]
    simp
  refine ⟨(doc.d_remove _ _).trans h.dim, ?_, ?_, ⟨h.stocked.counter, ?_, ?_, ?_⟩, by simp, by simp⟩
  · rw [hrows]
    rfl
  all_goals
    rw [hrows]
    simp

end Keeps

/-- `clear` of TypeScript calls a method that the component has. -/
theorem clean_eq {b : Binding} (hb : b ≠ .python) (s : FaissStore F) :
    clean getType b s = (s.clear, .ok []) := by
  cases b with
  | python => exact absurd rfl hb
  | typescript =>
    rw [clean, cleanMethod, callMethod_eq getType s "clear" rfl]
    rfl

/-- `clean` of Python calls one that it does not have. -/
theorem clean_python (s : FaissStore F) : clean getType .python s =
    (s, .error (.raised "There is no channel can handle this request")) := rfl

/-- A call that is careful is served, and the store keeps the documents behind it. -/
theorem Keeps.call {getType : Value → String} {b : Binding} (h : Keeps doc model base s docs)
    (hd : d < 2 ^ 31) {c : Call} (hc : Careful b (s, docs) c) :
    Served getType b model (s, docs) c ∧
      ∃ base', Keeps doc model base' (VectorStore.call getType b model s c).1 (c.after docs) := by
  cases c with
  | insert document metadata =>
    obtain ⟨hlt, hsmall⟩ := hc
    obtain ⟨hreply, hnext⟩ := h.insert getType hd ⟨document, metadata⟩ hlt hsmall
    exact ⟨⟨[], hreply, rfl⟩, base, hnext⟩
  | retrieve query topK =>
    obtain ⟨hpython, hcount⟩ := hc
    obtain ⟨items, hreply, hanswers⟩ := h.retrieve getType b hd query hpython hcount
    have hcall : VectorStore.call getType b model s (.retrieve query topK) = (s, .ok items) := hreply
    refine ⟨⟨items, congrArg Prod.snd hcall, hanswers⟩, base, ?_⟩
    rw [hcall]
    exact h
  | clean =>
    have hcall : VectorStore.call getType b model s .clean = (s.clear, .ok []) :=
      clean_eq getType hc s
    refine ⟨⟨[], congrArg Prod.snd hcall, rfl⟩, base + docs.length, ?_⟩
    rw [hcall]
    exact h.clear

/-- A call that Python refuses is served in no state. -/
theorem not_served_of_refused {getType : Value → String} {b : Binding} {c : Call}
    (hc : Refused b c) (st : FaissStore F × List Entry) : ¬ Served getType b model st c := by
  rintro ⟨items, hreply, -⟩
  cases c with
  | insert document metadata => exact hc
  | retrieve query topK =>
    obtain ⟨rfl, hlarge⟩ := hc
    have hnone : topKValue .python topK = none := if_neg (not_lt.mpr hlarge)
    have hcall : (VectorStore.retrieve getType .python model st.1 query topK).2 = .ok items := hreply
    rw [VectorStore.retrieve, hnone] at hcall
    cases hcall
  | clean =>
    obtain rfl := hc
    have hcall : (VectorStore.clean getType .python st.1).2 = .ok items := hreply
    rw [clean_python] at hcall
    cases hcall

/-- Every call leads to one state. -/
theorem meets_cons {getType : Value → String} {b : Binding}
    {ok : FaissStore F × List Entry → Call → Prop} {st : FaissStore F × List Entry} {c : Call}
    {calls : List Call} : Meets (step getType b model) ok st (c :: calls) ↔
      ok st c ∧ Meets (step getType b model) ok
        ((VectorStore.call getType b model st.1 c).1, c.after st.2) calls :=
  and_congr_right fun _ => ⟨fun h => h _ rfl, fun h _ hst => Option.some.inj hst ▸ h⟩

/-- A run with a call that Python refuses is not served. -/
theorem not_meets_of_refused {getType : Value → String} {b : Binding} {calls : List Call} {c : Call}
    (hmem : c ∈ calls) (hc : Refused b c) (st : FaissStore F × List Entry) :
    ¬ Meets (step getType b model) (Served getType b model) st calls := by
  induction calls generalizing st with
  | nil => cases hmem
  | cons c' calls ih =>
    rw [meets_cons]
    rintro ⟨hserved, hrest⟩
    rcases List.mem_cons.mp hmem with rfl | hmem
    · exact not_served_of_refused hc st hserved
    · exact ih hmem _ hrest

end Steps

/-- A store that has just been defined keeps no documents. -/
theorem keeps_nil (doc : F.Documented) {d : ℕ} (hd : d < 2 ^ 31) (model : EmbeddingModel d)
    {s : FaissStore F}
    (hs : createVectorStoreComponent F (.map [("dimension", .uint (UInt64.ofNat d))]) =
      .ok (.ok s)) : Keeps doc model 0 s [] := by
  have hdim : (UInt64.ofNat d).toNat = d := UInt64.toNat_ofNat_of_lt' (by
    have hsize : UInt64.size = 2 ^ 64 := rfl
    omega)
  have hmake : FaissStore.make F (UInt64.ofNat d).toNat = s := Except.ok.inj (Except.ok.inj hs)
  rw [hdim] at hmake
  obtain rfl := hmake
  refine ⟨doc.d_make d hd, ?_, ?_, FaissStore.make_isStocked doc d, by simp, by simp⟩
  · show (doc.rows (F.make d)).map Prod.fst = _
    rw [doc.rows_make]
    rfl
  · show ∀ r ∈ doc.rows (F.make d), _
    rw [doc.rows_make]
    simp

/-- From a store that has just been defined, a run whose calls are all careful is served as a plain
collection of the documents serves it. A run with a `clean` of Python, or in which Python asks for
`2^63` documents or more, is not. -/
theorem calls_served (doc : F.Documented) (getType : Value → String) (b : Binding) {d : ℕ}
    (hd : d < 2 ^ 31) (model : EmbeddingModel d) {s : FaissStore F}
    (hs : createVectorStoreComponent F (.map [("dimension", .uint (UInt64.ofNat d))]) = .ok (.ok s))
    (calls : List Call) :
    (Meets (step getType b model) (Careful b) (s, []) calls →
      Meets (step getType b model) (Served getType b model) (s, []) calls) ∧
    ((∃ c ∈ calls, Refused b c) →
      ¬ Meets (step getType b model) (Served getType b model) (s, []) calls) := by
  constructor
  · intro hcareful
    have hinv : ∀ (st : FaissStore F × List Entry) (c : Call) (st' : FaissStore F × List Entry),
        (∃ base, Keeps doc model base st.1 st.2) → Careful b st c →
        step getType b model st c = some st' → ∃ base, Keeps doc model base st'.1 st'.2 := by
      rintro ⟨s, docs⟩ c st' ⟨base, hkeeps⟩ hc hstep
      obtain rfl := Option.some.inj hstep
      exact (hkeeps.call hd hc).2
    refine (hcareful.congr hinv ?_ ⟨0, keeps_nil doc hd model hs⟩).mp hcareful
    rintro ⟨s, docs⟩ c ⟨base, hkeeps⟩ hc
    exact iff_of_true hc (hkeeps.call hd hc).1
  · rintro ⟨c, hmem, hc⟩
    exact not_meets_of_refused hmem hc _

/-- The model that takes every text to the vector zero of one dimension. -/
def zeroModel : EmbeddingModel 1 where
  embed _ := bytesVector [0, 0, 0, 0]
  isEmbedding _ := ⟨rfl, rfl, rfl⟩
  finite _ := by decide

/-- An insertion and two retrievals, of which `clear` of TypeScript stands before the second. -/
theorem calls_served_typescript :
    Meets (step (fun _ => "") .typescript zeroModel) (Served (fun _ => "") .typescript zeroModel)
      (FaissStore.make listLibrary 1, [])
      [.insert "a" .absent, .retrieve "b" 5, .clean, .retrieve "b" 5] := by
  refine (calls_served listLibrary_documented (fun _ => "") .typescript (by decide) zeroModel
    (s := FaissStore.make listLibrary 1) rfl _).1 ?_
  have hb : Binding.typescript ≠ .python := by decide
  rw [meets_cons, meets_cons, meets_cons, meets_cons]
  exact ⟨⟨by decide, Value.everywhere_leaf trivial fun u hu => hu⟩,
    ⟨fun h => absurd h hb, by decide⟩, hb, ⟨fun h => absurd h hb, by decide⟩, trivial⟩

/-- In Python, an insertion and then a `clean`: the `clean` raises, and the document is still there. -/
theorem clean_not_served :
    ¬ Meets (step (fun _ => "") .python zeroModel) (Served (fun _ => "") .python zeroModel)
        (FaissStore.make listLibrary 1, []) [.insert "a" .absent, .clean] ∧
      clean (fun _ => "") .python (insert (fun _ => "") zeroModel (FaissStore.make listLibrary 1) "a"
          .absent).1 =
        ((insert (fun _ => "") zeroModel (FaissStore.make listLibrary 1) "a" .absent).1,
          .error (.raised "There is no channel can handle this request")) :=
  ⟨not_meets_of_refused (c := .clean) (by simp) rfl _, rfl⟩

end Ailoy.VectorStore
