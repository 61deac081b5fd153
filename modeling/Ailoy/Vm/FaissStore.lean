import Ailoy.Core.IntegerText
import Ailoy.Core.Ndarray
import Ailoy.Lib.BinaryFloat
import Ailoy.Lib.UnorderedMap

/-!
# The Faiss vector store

`faiss_vector_store_impl_t` of `vm/src/faiss/faiss_vector_store.cpp`: an index of vectors and a map
of documents, under the same ids, and a counter for the next id. The index is a Faiss `IndexIDMap2`
over an `IndexFlatIP`. Its functions are the parameter `FaissLibrary`, and `FaissLibrary.Documented`
is what Faiss documents of them. A float is its bit pattern. A call returns the store behind it also
when it throws.
-/

namespace Ailoy

/-- The functions of the index. `reconstruct` gives nothing where it throws a `FaissException`, and
`removeIds` takes an `IDSelector`. -/
structure FaissLibrary where
  Index : Type
  make : ℕ → Index
  d : Index → ℕ
  ntotal : Index → ℕ
  addWithIds : Index → List (Int64 × List ℕ) → Index
  reconstruct : Index → Int64 → Option (List ℕ)
  search : Index → List ℕ → ℕ → List (Int64 × ℕ)
  removeIds : Index → (Int64 → Bool) → Index

/-- No float is infinite or a NaN. -/
def FiniteFloats (row : List ℕ) : Prop :=
  ∀ w ∈ row, BinaryFloat.binary32.exponent w ≠ BinaryFloat.binary32.maxExponent

/-- What Faiss documents. The index holds rows with their ids in order; it removes those that are
selected; it reconstructs a row that it holds; and it finds as many rows as it is asked for, when
there are so many and all floats are finite. The dimension is an `int`. -/
structure FaissLibrary.Documented (F : FaissLibrary) where
  rows : F.Index → List (Int64 × List ℕ)
  rows_make (d : ℕ) : rows (F.make d) = []
  rows_add (x : F.Index) (rs : List (Int64 × List ℕ)) : rows (F.addWithIds x rs) = rows x ++ rs
  rows_remove (x : F.Index) (sel : Int64 → Bool) :
    rows (F.removeIds x sel) = (rows x).filter fun r => !sel r.1
  d_make (d : ℕ) : d < 2 ^ 31 → F.d (F.make d) = d
  d_add (x : F.Index) (rs : List (Int64 × List ℕ)) : F.d (F.addWithIds x rs) = F.d x
  d_remove (x : F.Index) (sel : Int64 → Bool) : F.d (F.removeIds x sel) = F.d x
  ntotal_eq (x : F.Index) : F.ntotal x = (rows x).length
  reconstruct_mem (x : F.Index) (i : Int64) (row : List ℕ) :
    F.reconstruct x i = some row → (i, row) ∈ rows x
  reconstruct_none (x : F.Index) (i : Int64) : F.reconstruct x i = none → i ∉ (rows x).map Prod.fst
  search_length (x : F.Index) (q : List ℕ) (k : ℕ) : (F.search x q k).length = k
  search_mem (x : F.Index) (q : List ℕ) (k : ℕ) : FiniteFloats q →
    (∀ r ∈ rows x, FiniteFloats r.2) → k ≤ (rows x).length →
      ∀ r ∈ F.search x q k, r.1 ∈ (rows x).map Prod.fst
  search_nodup (x : F.Index) (q : List ℕ) (k : ℕ) : FiniteFloats q →
    (∀ r ∈ rows x, FiniteFloats r.2) → k ≤ (rows x).length →
      ((rows x).map Prod.fst).Nodup → ((F.search x q k).map Prod.fst).Nodup

/-- `document_store_t`. -/
structure Document where
  document : String
  metadata : Option Json

/-- `vector_store_add_input_t`. -/
structure AddInput where
  embedding : Ndarray
  document : String
  metadata : Option Json

/-- `vector_store_get_result_t`. -/
structure GetResult where
  id : String
  document : String
  metadata : Option Json
  embedding : Ndarray

/-- `vector_store_retrieve_result_t`. -/
structure RetrieveResult where
  id : String
  document : String
  metadata : Option Json
  similarity : ℕ

/-- `operator[]` of the map of documents, which makes an entry for an id that has none. -/
def documentAt (documents : UnorderedMap Int64 Document) (id : Int64) :
    UnorderedMap Int64 Document × Document :=
  let documents := UnorderedMap.insertNew documents id ⟨"", none⟩
  (documents, (documents.lookup id).getD ⟨"", none⟩)

/-- `faiss_vector_store_impl_t`. -/
structure FaissStore (F : FaissLibrary) where
  index : F.Index
  idCounter : Int64
  documentStore : UnorderedMap Int64 Document

namespace FaissStore

variable {F : FaissLibrary}

/-- The constructor. -/
def make (F : FaissLibrary) (dimension : ℕ) : FaissStore F := ⟨F.make dimension, 0, ∅⟩

/-- `is_valid_embedding`. -/
def isValidEmbedding (s : FaissStore F) (embedding : Ndarray) : Bool :=
  match embedding.shape with
  | [dim] => dim.toNat = F.d s.index
  | _ => false

/-- The floats that the index reads of an embedding: it is converted to a vector, and as many floats
as the index has dimensions are read from there. -/
def row (s : FaissStore F) (embedding : Ndarray) : Except Fault (List ℕ) := do
  let vec ← embedding.asVector 4
  if F.d s.index ≤ vec.length then return vec.take (F.d s.index) else .error .outOfBounds

/-- `add_vector`. -/
def addVector (s : FaissStore F) (input : AddInput) : FaissStore F × Except Fault String :=
  if s.isValidEmbedding input.embedding then
    let id := s.idCounter
    let s := { s with idCounter := id + 1 }
    match s.row input.embedding with
    | .error f => (s, .error f)
    | .ok row =>
      ({ s with
          index := F.addWithIds s.index [(id, row)]
          documentStore := s.documentStore.insert id ⟨input.document, input.metadata⟩ },
        .ok (int64ToString id))
  else
    (s, .error (.exception ("[FAISS] invalid embedding shape: " ++ input.embedding.shapeStr)))

/-- The loop of `add_vectors` that gives ids to the inputs and collects their floats. -/
def takeRows (s : FaissStore F) :
    List AddInput → FaissStore F × Except Fault (List (Int64 × List ℕ))
  | [] => (s, .ok [])
  | input :: inputs =>
    let id := s.idCounter
    let s := { s with idCounter := id + 1 }
    match s.row input.embedding with
    | .error f => (s, .error f)
    | .ok row =>
      match takeRows s inputs with
      | (s, .error f) => (s, .error f)
      | (s, .ok rows) => (s, .ok ((id, row) :: rows))

/-- The loop of `add_vectors` that inserts the documents. -/
def putDocuments (documents : UnorderedMap Int64 Document) :
    List Int64 → List AddInput → UnorderedMap Int64 Document
  | id :: ids, input :: inputs =>
    putDocuments (documents.insert id ⟨input.document, input.metadata⟩) ids inputs
  | _, _ => documents

/-- `add_vectors`. -/
def addVectors (s : FaissStore F) (inputs : List AddInput) :
    FaissStore F × Except Fault (List String) :=
  match inputs.find? fun input => !s.isValidEmbedding input.embedding with
  | some input =>
    (s, .error (.exception ("[FAISS] invalid embedding shape: " ++ input.embedding.shapeStr)))
  | none =>
    match s.takeRows inputs with
    | (s, .error f) => (s, .error f)
    | (s, .ok rows) =>
      let ids := rows.map Prod.fst
      ({ s with
          index := F.addWithIds s.index rows
          documentStore := putDocuments s.documentStore ids inputs },
        .ok (ids.map int64ToString))

/-- `get_by_id`. -/
def getById (s : FaissStore F) (id : String) : FaissStore F × Except Fault (Option GetResult) :=
  let i := strtoll id
  match F.reconstruct s.index i with
  | none => (s, .ok none)
  | some vec =>
    let embedding : Ndarray :=
      ⟨[UInt64.ofNat (F.d s.index)], float32, vec.flatMap (leBytes 4)⟩
    let (documents, doc) := documentAt s.documentStore i
    ({ s with documentStore := documents }, .ok (some ⟨id, doc.document, doc.metadata, embedding⟩))

/-- The loop of `retrieve` over what the index found. -/
def readResults (documents : UnorderedMap Int64 Document) :
    List (Int64 × ℕ) → UnorderedMap Int64 Document × List RetrieveResult
  | [] => (documents, [])
  | (id, similarity) :: found =>
    let (documents, doc) := documentAt documents id
    let (documents, results) := readResults documents found
    (documents, ⟨int64ToString id, doc.document, doc.metadata, similarity⟩ :: results)

/-- `retrieve`. A vector of a negative size throws, and the loop over the results counts them with
an `int`, so that it leaves the vector of ids when they are too many. -/
def retrieve (s : FaissStore F) (queryEmbedding : Ndarray) (topK : UInt64) :
    FaissStore F × Except Fault (List RetrieveResult) :=
  if s.isValidEmbedding queryEmbedding then
    let minK : ℤ := min (F.ntotal s.index) topK.toInt64.toInt
    if minK = 0 then (s, .ok [])
    else if minK < 0 then
      (s, .error (.exception "cannot create std::vector larger than max_size()"))
    else
      match s.row queryEmbedding with
      | .error f => (s, .error f)
      | .ok vec =>
        if 2 ^ 31 ≤ minK then (s, .error .outOfBounds) else
        let (documents, results) :=
          readResults s.documentStore (F.search s.index vec minK.toNat)
        ({ s with documentStore := documents }, .ok results)
  else
    (s, .error (.exception ("[FAISS] invalid query embedding shape: " ++ queryEmbedding.shapeStr)))

/-- `remove_vector`. -/
def removeVector (s : FaissStore F) (id : String) : FaissStore F :=
  let i := strtoll id
  { s with
    index := F.removeIds s.index fun j => j = i
    documentStore := s.documentStore.erase i }

/-- `clear`. -/
def clear (s : FaissStore F) : FaissStore F :=
  { s with index := F.removeIds s.index fun _ => true, documentStore := ∅ }

end FaissStore

/-- A call of the store. -/
inductive StoreAct
  | addVector (input : AddInput)
  | addVectors (inputs : List AddInput)
  | getById (id : String)
  | retrieve (queryEmbedding : Ndarray) (topK : UInt64)
  | removeVector (id : String)
  | clear

/-- What a call returns. -/
inductive StoreReply
  | id (id : String)
  | ids (ids : List String)
  | got (result : Option GetResult)
  | retrieved (results : List RetrieveResult)
  | done

namespace FaissStore

variable {F : FaissLibrary}

/-- The store behind a call, and what the call returns. -/
def step (s : FaissStore F) : StoreAct → FaissStore F × Except Fault StoreReply
  | .addVector input => ((s.addVector input).1, (s.addVector input).2.map .id)
  | .addVectors inputs => ((s.addVectors inputs).1, (s.addVectors inputs).2.map .ids)
  | .getById id => ((s.getById id).1, (s.getById id).2.map .got)
  | .retrieve queryEmbedding topK =>
    ((s.retrieve queryEmbedding topK).1, (s.retrieve queryEmbedding topK).2.map .retrieved)
  | .removeVector id => (s.removeVector id, .ok .done)
  | .clear => (s.clear, .ok .done)

/-- The store after calls. -/
def after (s : FaissStore F) (acts : List StoreAct) : FaissStore F :=
  acts.foldl (fun s a => (s.step a).1) s

end FaissStore

end Ailoy
