import Ailoy.Bindings.VectorStore
import Ailoy.Vm.EmbeddingModel

/-!
# Texts in the vector store

`VectorStore` of the bindings over both of its components: the texts go through the embedding model
of `vm/src/mlc_llm/embedding_model.cpp` before they go to the Faiss store. `texts_indexed` follows
the numbers from `prefill` to the index and from a query to the items: in every state of a careful
run, the rows of the index are the numbers that `prefill` makes of the documents, in order; and the
items of a retrieval are what the index finds for the numbers of the query.
-/

namespace Ailoy.VectorStore

open BinaryFloat Transition

variable {F : FaissLibrary}

/-! ## The embedding model as a component -/

section Model

variable (T : TvmRuntime) (m : TvmEmbeddingModel)

/-- `embedding`, over `infer` of the component. -/
def embedding (getType : Value → String) (text : String) : Except CallError Ndarray :=
  match m.inferOp T getType (.map [("prompt", .string text)]) with
  | .error f => .error (.fault f)
  | .ok (.error e) => .error (.raised e.reason)
  | .ok (.ok (.map resp)) =>
    match resp.lookup "embedding" with
    | some (.ndarray shape dtype data) => .ok ⟨shape, dtype, data⟩
    | _ => .error .invalid
  | .ok (.ok _) => .error .invalid

/-- `prefill` makes finite numbers in half or in single precision of the tokens of every text, and
their last dimension is `d`. -/
def Serves (d : ℕ) : Prop :=
  ∀ text, ∃ logits, m.logits T (m.encode text) = .ok logits ∧ logits.Suits d ∧
    ∀ i < d, ∃ s q, logits.number i = .finite s q

/-- The first `d` numbers that `prefill` makes of the tokens of a text. -/
def numbers (d : ℕ) (text : String) : List Datum :=
  match m.logits T (m.encode text) with
  | .ok logits => (List.range d).map logits.number
  | .error _ => []

/-- A model that serves every text is one of the wrappers, with the same numbers. -/
theorem exists_model {T : TvmRuntime} {m : TvmEmbeddingModel} (hT : T.Documented) {d : ℕ}
    (hd : d < 2 ^ 31) (hserves : Serves T m d) (getType : Value → String) :
    ∃ model : EmbeddingModel d, ∀ text, embedding T m getType text = .ok (model.embed text) ∧
      ((model.embed text).floats d).map binary32.datum = numbers T m d text := by
  have htext : ∀ text, ∃ e : Ndarray, embedding T m getType text = .ok e ∧ e.IsEmbedding d ∧
      FiniteFloats (e.floats d) ∧ (e.floats d).map binary32.datum = numbers T m d text := by
    intro text
    obtain ⟨logits, hlogits, hsuits, hfinite⟩ := hserves text
    obtain ⟨e, he, hembedding, hfloats⟩ :=
      TvmEmbeddingModel.inferOp_of_suits hT getType
        (show List.lookup "prompt" [("prompt", Value.string text)] = _ from rfl) hlogits hsuits hd
    have hnumbers : numbers T m d text = (List.range d).map logits.number := by
      unfold numbers
      rw [hlogits]
    refine ⟨e, ?_, hembedding, ?_, hfloats.trans hnumbers.symm⟩
    · unfold embedding
      rw [he]
      rfl
    · -- A float with the exponent of the infinities stands for no finite number.
      intro w hw hmax
      have hmem : binary32.datum w ∈ (List.range d).map logits.number := by
        rw [← hfloats]
        exact List.mem_map_of_mem hw
      obtain ⟨i, hi, hnumber⟩ := List.mem_map.mp hmem
      obtain ⟨s, q, hdatum⟩ := hfinite i (List.mem_range.mp hi)
      rw [hdatum] at hnumber
      unfold Format.datum at hnumber
      rw [if_pos hmax] at hnumber
      split_ifs at hnumber
  choose embed hembed hembedding hfinite hnumbers using htext
  exact ⟨⟨embed, hembedding, hfinite⟩, fun text => ⟨hembed text, hnumbers text⟩⟩

end Model

/-! ## What a retrieval shows -/

/-- The item has the similarity. -/
def HasSimilarity (item : Value) (similarity : ℕ) : Prop :=
  ∃ kvs, item = .map kvs ∧ kvs.lookup "similarity" = some (.float (UInt32.ofNat similarity))

theorem map_similarity_readResults (documents : UnorderedMap Int64 Document)
    (found : List (Int64 × ℕ)) :
    (FaissStore.readResults documents found).2.map RetrieveResult.similarity =
      found.map Prod.snd := by
  induction found generalizing documents with
  | nil => rfl
  | cons f found ih => exact congrArg (List.cons f.2) (ih _)

/-- What the operator returns has the similarities of the results. -/
theorem hasSimilarity_of_output {results : List RetrieveResult} {outs : List Value}
    (h : results.mapM RetrieveResult.output = .ok outs) :
    List.Forall₂ HasSimilarity outs (results.map RetrieveResult.similarity) := by
  induction results generalizing outs with
  | nil =>
    obtain rfl : [] = outs := Except.ok.inj h
    exact .nil
  | cons r results ih =>
    obtain ⟨out, rest, hout, hrest, rfl⟩ := Except.mapM_cons_eq_ok_iff.mp h
    obtain ⟨metadata, -, hvalue⟩ := Except.bind_eq_ok_iff.mp hout
    exact .cons ⟨_, (Except.ok.inj hvalue).symm, rfl⟩ (ih hrest)

section Runs

variable {doc : F.Documented} {d base : ℕ} {model : EmbeddingModel d} {s : FaissStore F}
  {docs : List Entry} {getType : Value → String} {b : Binding}

/-- The item shows the document whose row was found, with the score that it was found with. -/
def ShowsRow (doc : F.Documented) (s : FaissStore F) (docs : List Entry) (item : Value)
    (found : Int64 × ℕ) : Prop :=
  (∃ (i : ℕ) (e : Entry), docs[i]? = some e ∧
    ((doc.rows s.index)[i]?).map Prod.fst = some found.1 ∧ Shows item e) ∧
    HasSimilarity item found.2

/-- A result for the id of a row shows the document of that row. -/
theorem Keeps.shows_of_mem (h : Keeps doc model base s docs) {id : Int64} {item : Value}
    (hmem : id ∈ (doc.rows s.index).map Prod.fst)
    (hresult : ResultFor (logOf model base docs) id item) :
    ∃ (i : ℕ) (e : Entry), docs[i]? = some e ∧
      ((doc.rows s.index)[i]?).map Prod.fst = some id ∧ Shows item e := by
  rw [h.ids] at hmem
  obtain ⟨j, hj, rfl⟩ := List.mem_map.mp hmem
  obtain ⟨⟨e, hlookup, hshows⟩, -⟩ := h.shows (List.mem_range.mp hj) hresult
  refine ⟨j, e, hlookup, ?_, hshows⟩
  rw [← List.getElem?_map, h.ids, List.getElem?_map, List.getElem?_range (List.mem_range.mp hj)]
  rfl

/-- A retrieval whose results can be counted reads the documents of what the index finds. -/
theorem Keeps.retrieve_eq (h : Keeps doc model base s docs) (hd : d < 2 ^ 31) (query : String)
    {k : UInt64} (hk : k.toNat < 2 ^ 63) (hcount : min docs.length k.toNat < 2 ^ 31)
    {results : List RetrieveResult}
    (hread : FaissStore.readResults s.documentStore
      (F.search s.index ((model.embed query).floats d) (min docs.length k.toNat)) =
        (s.documentStore, results)) :
    s.retrieve (model.embed query) k = (s, .ok results) := by
  obtain ⟨hvalid, hrow⟩ := FaissStore.row_of_isEmbedding h.dim hd (model.isEmbedding query)
  rw [FaissStore.retrieve_eq hvalid, if_neg (by omega), doc.ntotal_eq, h.length_rows]
  by_cases hzero : min docs.length k.toNat = 0
  · -- Nothing is searched for.
    have hfound := doc.search_length s.index ((model.embed query).floats d) (min docs.length k.toNat)
    rw [List.eq_nil_of_length_eq_zero (hfound.trans hzero)] at hread
    obtain rfl : [] = results := congrArg Prod.snd hread
    rw [if_pos hzero]
  · rw [if_neg hzero, hrow]
    dsimp only
    rw [if_neg (by omega), hread]

/-- A retrieval shows what the index finds for the query, in this order. -/
theorem Keeps.showsRows (h : Keeps doc model base s docs) (hd : d < 2 ^ 31) (query : String)
    {topK : ℕ} (hpython : b = .python → topK < 2 ^ 63) (hcount : min topK docs.length < 2 ^ 31)
    {items : List Value}
    (hitems : (VectorStore.retrieve getType b model s query topK).2 = .ok items) :
    List.Forall₂ (ShowsRow doc s docs) items
      (F.search s.index ((model.embed query).floats d) (min topK docs.length)) := by
  have hlarge : docs.length ≤ 2 ^ 64 := h.length_le
  have hlen := h.length_rows
  -- The number that the operator reads, and how many rows it asks the index for.
  obtain ⟨k, hk, hwrap, -, -⟩ := FaissStore.readTopK_of_integer getType
    (v := .int (Int64.ofNat (min topK (2 ^ 63 - 1))))
    (congrArg some (Int64.toInt_ofNat_of_lt (by omega)))
  rw [wrap_of_lt (by omega)] at hwrap
  have hfew : min docs.length k.toNat = min topK docs.length := by omega
  have hids : ∀ f ∈ F.search s.index ((model.embed query).floats d) (min topK docs.length),
      f.1 ∈ (doc.rows s.index).map Prod.fst :=
    doc.search_mem s.index _ _ (model.finite query) h.finite (by omega)
  obtain ⟨results, outs, hread, houts, hresults⟩ :=
    FaissStore.readResults_stocked h.stocked h.exists_metadata hids
  have hop : s.operator getType .retrieve (.map [("query_embedding", (model.embed query).value),
      ("top_k", .int (Int64.ofNat (min topK (2 ^ 63 - 1))))]) =
        (s, .ok (.ok (.map [("results", .array outs)]))) := by
    rw [FaissStore.operator, FaissStore.retrieveOp_eq getType s (q := model.embed query) rfl rfl hk,
      h.retrieve_eq hd query (by omega) (by omega) (by rw [hfew]; exact hread)]
    dsimp only
    rw [houts]
    rfl
  have hreply : readItems b (.map [("results", .array outs)]) = .ok items := by
    rw [VectorStore.retrieve, topKValue_eq hpython] at hitems
    dsimp only at hitems
    rw [callMethod_eq getType s "retrieve" rfl, hop] at hitems
    exact hitems
  obtain rfl : outs = items := by
    cases b with
    | typescript => exact Except.ok.inj hreply
    | python =>
      by_cases hall : outs.all isRetrieveItem = true
      · exact Except.ok.inj ((if_pos hall).symm.trans hreply)
      · cases (if_neg hall).symm.trans hreply
  -- A row with an id of a document, and the similarity that it was found with.
  have hsimilar := hasSimilarity_of_output houts
  have hscores := map_similarity_readResults s.documentStore
    (F.search s.index ((model.embed query).floats d) (min topK docs.length))
  rw [hread] at hscores
  rw [hscores, List.forall₂_map_right_iff] at hsimilar
  rw [List.forall₂_map_left_iff] at hresults
  have hshown := (List.forall₂_and_left _ _).mpr ⟨hids, hresults⟩
  exact hshown.flip.mp (fun item f hitem hscore => ⟨h.shows_of_mem hitem.1 hitem.2, hscore⟩) hsimilar

/-- In order, the rows of the index are the numbers of the documents. -/
def Indexed (doc : F.Documented) (T : TvmRuntime) (m : TvmEmbeddingModel) (d : ℕ)
    (st : FaissStore F × List Entry) : Prop :=
  List.Forall₂ (fun r e => r.2.map binary32.datum = numbers T m d e.document) (doc.rows st.1.index)
    st.2

/-- The items are what the index finds for the numbers of a text. -/
def Finds (doc : F.Documented) (T : TvmRuntime) (m : TvmEmbeddingModel) (d : ℕ)
    (st : FaissStore F × List Entry) (query : String) (topK : ℕ) (items : List Value) : Prop :=
  ∃ q : List ℕ, q.map binary32.datum = numbers T m d query ∧
    List.Forall₂ (ShowsRow doc st.1 st.2) items (F.search st.1.index q (min topK st.2.length))

/-- A careful call keeps the numbers. -/
theorem Indexed.call {T : TvmRuntime} {m : TvmEmbeddingModel}
    (hmodel : ∀ text, ((model.embed text).floats d).map binary32.datum = numbers T m d text)
    (hkeeps : Keeps doc model base s docs) (h : Indexed doc T m d (s, docs)) (hd : d < 2 ^ 31)
    {c : Call} (hc : Careful b (s, docs) c) :
    Indexed doc T m d ((VectorStore.call getType b model s c).1, c.after docs) := by
  unfold Indexed at h ⊢
  cases c with
  | insert document metadata =>
    have hinsert : VectorStore.insert getType model s document metadata = _ :=
      insert_eq getType hkeeps.dim hd ⟨document, metadata⟩
    show List.Forall₂ _ (doc.rows (VectorStore.insert getType model s document metadata).1.index)
      (docs ++ [⟨document, metadata⟩])
    rw [hinsert]
    dsimp only
    rw [doc.rows_add]
    exact List.rel_append h (.cons (hmodel document) .nil)
  | retrieve query topK =>
    obtain ⟨hpython, hcount⟩ := hc
    obtain ⟨items, hreply, -⟩ := hkeeps.retrieve getType b hd query hpython hcount
    show List.Forall₂ _ (doc.rows (VectorStore.retrieve getType b model s query topK).1.index) docs
    rw [hreply]
    exact h
  | clean =>
    show List.Forall₂ _ (doc.rows (VectorStore.clean getType b s).1.index) []
    rw [clean_eq getType hc]
    show List.Forall₂ _ (doc.rows (F.removeIds s.index fun _ => true)) []
    rw [doc.rows_remove]
    simp

end Runs

/-- A wrapper over an embedding model that serves every text, from a store that has just been defined:
what `infer` returns is a vector of the store, and behind every careful run, whose calls are all
served, the index holds the numbers that `prefill` makes of the documents; a careful retrieval shows
what the index finds for the numbers of the query. -/
theorem texts_indexed (doc : F.Documented) {T : TvmRuntime} (hT : T.Documented)
    (m : TvmEmbeddingModel) {d : ℕ} (hd : d < 2 ^ 31) (hserves : Serves T m d)
    (getType : Value → String) (b : Binding) {s : FaissStore F}
    (hs : createVectorStoreComponent F (.map [("dimension", .uint (UInt64.ofNat d))]) =
      .ok (.ok s)) :
    ∃ model : EmbeddingModel d, (∀ text, embedding T m getType text = .ok (model.embed text)) ∧
      ∀ calls st, Meets (step getType b model) (Careful b) (s, []) calls →
        run (step getType b model) (s, []) calls = some st →
        Meets (step getType b model) (Served getType b model) (s, []) calls ∧
        Indexed doc T m d st ∧
        ∀ query topK, Careful b st (.retrieve query topK) →
          ∃ items, VectorStore.retrieve getType b model st.1 query topK = (st.1, .ok items) ∧
            Answers st.2 (.retrieve query topK) items ∧ Finds doc T m d st query topK items := by
  obtain ⟨model, hmodel⟩ := exists_model hT hd hserves getType
  have hnumbers := fun text => (hmodel text).2
  have hinv : ∀ (st : FaissStore F × List Entry) (c : Call) (st' : FaissStore F × List Entry),
      ((∃ base, Keeps doc model base st.1 st.2) ∧ Indexed doc T m d st) → Careful b st c →
      step getType b model st c = some st' →
      (∃ base, Keeps doc model base st'.1 st'.2) ∧ Indexed doc T m d st' := by
    rintro ⟨s, docs⟩ c st' ⟨⟨base, hkeeps⟩, hindexed⟩ hc hstep
    obtain rfl := Option.some.inj hstep
    exact ⟨(hkeeps.call hd hc).2, hindexed.call hnumbers hkeeps hd hc⟩
  have hnew := keeps_nil doc hd model hs
  have hempty : Indexed doc T m d (s, []) := by
    have hrows : doc.rows s.index = [] := List.map_eq_nil_iff.mp hnew.ids
    unfold Indexed
    rw [hrows]
    exact .nil
  refine ⟨model, fun text => (hmodel text).1, fun calls st hcareful hrun => ?_⟩
  have hreach : ReachVia (step getType b model) (Careful b) (s, []) st :=
    ReachVia.init.of_run hcareful hrun
  obtain ⟨⟨base, hkeeps⟩, hindexed⟩ := hreach.invariant
    (P := fun st => (∃ base, Keeps doc model base st.1 st.2) ∧ Indexed doc T m d st)
    ⟨⟨0, hnew⟩, hempty⟩ fun st c st' _ h hc hstep => hinv st c st' h hc hstep
  refine ⟨?_, hindexed, ?_⟩
  · refine (hcareful.congr hinv ?_ ⟨⟨0, hnew⟩, hempty⟩).mp hcareful
    rintro ⟨s, docs⟩ c ⟨⟨base, hkeeps⟩, -⟩ hc
    exact iff_of_true hc (hkeeps.call hd hc).1
  · rintro query topK ⟨hpython, hcount⟩
    obtain ⟨items, hreply, hanswers⟩ := hkeeps.retrieve getType b hd query hpython hcount
    refine ⟨items, hreply, hanswers, (model.embed query).floats d, hnumbers query, ?_⟩
    exact hkeeps.showsRows hd query hpython hcount (congrArg Prod.snd hreply)

/-- The numbers of the model of bytes are finite. -/
theorem byteModel_serves : Serves hostRuntime byteModel 1 := by
  intro text
  obtain ⟨low, hlogits⟩ := byteModel_logits text
  refine ⟨_, hlogits, halfArray_suits low, fun i hi => ?_⟩
  obtain rfl : i = 0 := by omega
  have hlow := low.toNat_lt
  have hword : wordAt 2 (halfArray low).data 0 = low.toNat + 256 * 60 := rfl
  have hexp : binary16.exponent (low.toNat + 256 * 60) = 15 := by
    show (low.toNat + 256 * 60) / 2 ^ 10 % 2 ^ 5 = 15
    omega
  have hnumber : (halfArray low).number 0 = binary16.datum (wordAt 2 (halfArray low).data 0) :=
    if_pos rfl
  rw [hnumber, hword]
  unfold Format.datum
  rw [hexp, if_neg (by decide), if_neg (by decide)]
  exact ⟨_, _, rfl⟩

/-- A document and a query, over vectors of one dimension. -/
theorem texts_indexed_byteModel : ∃ (model : EmbeddingModel 1)
    (st : FaissStore listLibrary × List Entry) (items : List Value),
    run (step (fun _ => "") .python model) (FaissStore.make listLibrary 1, [])
        [.insert "a" .absent] = some st ∧ st.2.length = 1 ∧
      Indexed listLibrary_documented hostRuntime byteModel 1 st ∧ items.length = 1 ∧
      Finds listLibrary_documented hostRuntime byteModel 1 st "b" 5 items := by
  obtain ⟨model, -, hruns⟩ := texts_indexed listLibrary_documented hostRuntime_documented byteModel
    (d := 1) (by decide) byteModel_serves (fun _ => "") .python (s := FaissStore.make listLibrary 1) rfl
  have hcareful : Meets (step (fun _ => "") .python model) (Careful .python)
      (FaissStore.make listLibrary 1, []) [.insert "a" .absent] :=
    meets_cons.mpr ⟨⟨by decide, Value.everywhere_leaf trivial fun u hu => hu⟩, trivial⟩
  obtain ⟨-, hindexed, hfinds⟩ := hruns _ _ hcareful rfl
  obtain ⟨items, -, hanswers, hitems⟩ := hfinds "b" 5
    ⟨by decide, show 1 < 2 ^ 31 by decide⟩
  refine ⟨model, _, items, rfl, rfl, hindexed, ?_, hitems⟩
  obtain ⟨places, hlen, -, hshows⟩ := hanswers
  exact hshows.length_eq.symm.trans hlen

end Ailoy.VectorStore
