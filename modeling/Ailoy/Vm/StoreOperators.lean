import Ailoy.Core.NdarraySafety
import Ailoy.Lib.StopsAt
import Ailoy.Vm.StoreRetrieve

/-!
# What the operators of the store report

The method operators and the factory that `create_vector_store_component` of
`vm/src/vector_store.hpp` makes for the Faiss store. `insert` and `insert_many` read an input with
the same checks (`readAddInput`). An operator `Reports` when it returns an error for an input with a
wrong field and leaves the store alone, and a value for any other input. `StoreOp.Safe` is what an
operator leaves to its caller, and `operators_report_iff` says that each operator reports exactly
then, in every store that operators reach. The error branch for a field that is missing reads the
field itself (`readAddInput_cases`), the shape of an embedding is checked by the store, which throws,
and nobody checks the size of its data.
-/

namespace Ailoy

variable {F : FaissLibrary}

/-! ## The operators -/

section Operators

variable (getType : Value → String)

/-- What `insert` and `insert_many` read of an input, with the names that they give to its fields in
their errors. -/
def readAddInput (context path : String) (m : List (String × Value)) :
    Except Fault (Except ErrorOutput AddInput) :=
  match m.lookup "embedding" with
  | some (.ndarray shape dtype data) =>
    match m.lookup "document" with
    | some (.string document) =>
      match m.lookup "metadata" with
      | none => .ok (.ok ⟨⟨shape, dtype, data⟩, document, some (.object [])⟩)
      | some (.map kvs) =>
        .ok (.ok ⟨⟨shape, dtype, data⟩, document, some (Value.map kvs).toNlohmannJson⟩)
      | some .null => .ok (.ok ⟨⟨shape, dtype, data⟩, document, some Value.null.toNlohmannJson⟩)
      | some v => .ok (.error (.typeError context (path ++ "metadata") "map_t | null_t" (getType v)))
    | _ => do
      let v ← Value.mapAt m "embedding"
      return .error (.typeError context (path ++ "document") "string_t" (getType v))
  | _ => do
    let v ← Value.mapAt m "embedding"
    return .error (.typeError context (path ++ "embedding") "ndarray_t" (getType v))

/-- The loop of `insert_many` over its inputs. -/
def readAddInputs : List Value → Except Fault (Except ErrorOutput (List AddInput))
  | [] => .ok (.ok [])
  | .map m :: items =>
    match readAddInput getType "vector_store.insert_many" "inputs." m with
    | .error f => .error f
    | .ok (.error e) => .ok (.error e)
    | .ok (.ok input) =>
      match readAddInputs items with
      | .error f => .error f
      | .ok (.error e) => .ok (.error e)
      | .ok (.ok inputs) => .ok (.ok (input :: inputs))
  | v :: _ => .ok (.error (.typeError "vector_store.insert_many" "inputs.*" "map_t" (getType v)))

/-- The `id` that `get_by_id` and `remove` read. -/
def readId (context : String) : Value → Except ErrorOutput String
  | .map inputs =>
    match inputs.lookup "id" with
    | none => .error (.rangeError context "id")
    | some (.string id) => .ok id
    | some v => .error (.typeError context "id" "string_t" (getType v))
  | v => .error (.typeError context "inputs" "map_t" (getType v))

/-- The map that `get_by_id` makes of a result. -/
def GetResult.output (result : GetResult) : Except Fault Value := do
  let metadata ← metadataValue result.metadata
  return .map [("id", .string result.id), ("embedding", result.embedding.value),
    ("document", .string result.document), ("metadata", metadata)]

/-- The methods of the component. -/
inductive StoreOp
  | insert
  | insertMany
  | getById
  | retrieve
  | remove
  | clear

namespace FaissStore

/-- `insert`. -/
def insertOp (s : FaissStore F) : Value → FaissStore F × Except Fault (Except ErrorOutput Value)
  | .map inputs =>
    match readAddInput getType "vector_store.insert" "" inputs with
    | .error f => (s, .error f)
    | .ok (.error e) => (s, .ok (.error e))
    | .ok (.ok input) =>
      match s.addVector input with
      | (s, .error f) => (s, .error f)
      | (s, .ok id) => (s, .ok (.ok (.map [("id", .string id)])))
  | v => (s, .ok (.error (.typeError "vector_store.insert" "inputs" "map_t" (getType v))))

/-- `insert_many`. -/
def insertManyOp (s : FaissStore F) :
    Value → FaissStore F × Except Fault (Except ErrorOutput Value)
  | .array items =>
    match readAddInputs getType items with
    | .error f => (s, .error f)
    | .ok (.error e) => (s, .ok (.error e))
    | .ok (.ok inputs) =>
      match s.addVectors inputs with
      | (s, .error f) => (s, .error f)
      | (s, .ok ids) => (s, .ok (.ok (.map [("ids", .array (ids.map .string))])))
  | v => (s, .ok (.error (.typeError "vector_store.insert_many" "inputs" "array_t" (getType v))))

/-- `get_by_id`. -/
def getByIdOp (s : FaissStore F) (inputs : Value) :
    FaissStore F × Except Fault (Except ErrorOutput Value) :=
  match readId getType "vector_store.get_by_id" inputs with
  | .error e => (s, .ok (.error e))
  | .ok id =>
    match s.getById id with
    | (s, .error f) => (s, .error f)
    | (s, .ok none) => (s, .ok (.ok .null))
    | (s, .ok (some result)) => (s, result.output.map .ok)

/-- `remove`. -/
def removeOp (s : FaissStore F) (inputs : Value) :
    FaissStore F × Except Fault (Except ErrorOutput Value) :=
  match readId getType "vector_store.remove" inputs with
  | .error e => (s, .ok (.error e))
  | .ok id => (s.removeVector id, .ok (.ok (.bool true)))

/-- A method of the component, for a component with the store `s`. -/
def operator (s : FaissStore F) :
    StoreOp → Value → FaissStore F × Except Fault (Except ErrorOutput Value)
  | .insert, inputs => s.insertOp getType inputs
  | .insertMany, inputs => s.insertManyOp getType inputs
  | .getById, inputs => s.getByIdOp getType inputs
  | .retrieve, inputs => s.retrieveOp getType inputs
  | .remove, inputs => s.removeOp getType inputs
  | .clear, _ => (s.clear, .ok (.ok (.bool true)))

/-- The store after calls of the methods. -/
def afterOps (s : FaissStore F) (calls : List (StoreOp × Value)) : FaissStore F :=
  calls.foldl (fun s c => (s.operator getType c.1 c.2).1) s

end FaissStore

end Operators

/-- The factory of the component, over the constructor of `faiss_vector_store_t`. -/
def createVectorStoreComponent (F : FaissLibrary) :
    Value → Except Fault (Except ErrorOutput (FaissStore F))
  | .map attrs => do
    let v ← Value.mapAt attrs "dimension"
    let dimension ← v.asUint
    return .ok (.make F dimension.toNat)
  | _ => .error .nullDereference

/-! ## What is reported -/

/-- A call returns an error if something is wrong, and leaves the state alone; otherwise it returns a
value. -/
def Reports {σ : Type} (wrong : Prop) (s : σ)
    (reply : σ × Except Fault (Except ErrorOutput Value)) : Prop :=
  (wrong ∧ ∃ e, reply = (s, .ok (.error e))) ∨ (¬ wrong ∧ ∃ s' v, reply = (s', .ok (.ok v)))

/-- The metadata that an input has, if it may have one of that type. -/
def meantMetadata : Option Value → Option Json
  | none => some (.object [])
  | some (.map kvs) => some (Value.map kvs).toNlohmannJson
  | some .null => some .null
  | some _ => none

/-- The input that a value stands for, if all of its fields have the types that they should have. -/
def Value.addInput? : Value → Option AddInput
  | .map m =>
    match m.lookup "embedding", m.lookup "document" with
    | some (.ndarray shape dtype data), some (.string document) =>
      (meantMetadata (m.lookup "metadata")).map fun j => ⟨⟨shape, dtype, data⟩, document, some j⟩
    | _, _ => none
  | _ => none

/-- The value is a map that has no embedding. -/
def Value.LacksEmbedding : Value → Prop
  | .map m => m.lookup "embedding" = none
  | _ => False

/-- The first of the values in which something is wrong is a map that has no embedding. -/
def LacksEmbedding : List Value → Prop :=
  List.StopsAt (fun v => v.addInput?.isSome = true) Value.LacksEmbedding

/-- As many floats can be read of the array as the index has dimensions. -/
def Ndarray.Holds (d : ℕ) (a : Ndarray) : Prop :=
  4 * (a.size / 4) ≤ a.data.length ∧ d ≤ a.size / 4

namespace StoreOp

/-- A required field of the input is missing, a field has another type than it should have, or an
embedding another shape. -/
def Wrong (s : FaissStore F) : StoreOp → Value → Prop
  | .insert, v => ∀ input, v.addInput? = some input → ¬ s.isValidEmbedding input.embedding = true
  | .insertMany, v => ∀ vs inputs, v = .array vs → vs.mapM Value.addInput? = some inputs →
    ∃ input ∈ inputs, ¬ s.isValidEmbedding input.embedding = true
  | .getById, v => ∀ m id, v = .map m → m.lookup "id" ≠ some (.string id)
  | .retrieve, v => ∀ m q n, v = .map m → m.lookup "query_embedding" = some (Ndarray.value q) →
    (m.lookup "top_k").bind Value.integer? = some n → ¬ s.isValidEmbedding q = true
  | .remove, v => ∀ m id, v = .map m → m.lookup "id" ≠ some (.string id)
  | .clear, _ => False

/-- What a method leaves to its caller: that there is an embedding; if no field is missing or has
another type, that the embeddings have the shape of the store and all of their data; and that the
number of results passes its conversions. -/
def Safe (s : FaissStore F) : StoreOp → Value → Prop
  | .insert, v => ¬ v.LacksEmbedding ∧ ∀ input, v.addInput? = some input →
    s.isValidEmbedding input.embedding = true ∧ input.embedding.Holds (F.d s.index)
  | .insertMany, v => ∀ vs, v = .array vs → ¬ LacksEmbedding vs ∧
    ∀ inputs, vs.mapM Value.addInput? = some inputs → ∀ input ∈ inputs,
      s.isValidEmbedding input.embedding = true ∧ input.embedding.Holds (F.d s.index)
  | .retrieve, v => ∀ m q n, v = .map m → m.lookup "query_embedding" = some (Ndarray.value q) →
    (m.lookup "top_k").bind Value.integer? = some n →
    s.isValidEmbedding q = true ∧ 0 ≤ n ∧ n < 2 ^ 63 ∧
      (min (F.ntotal s.index : ℤ) n = 0 ∨
        q.Holds (F.d s.index) ∧ min (F.ntotal s.index : ℤ) n < 2 ^ 31)
  | .getById, _ | .remove, _ | .clear, _ => True

end StoreOp

/-- The factory returns an error if there is no dimension or none of its type, and otherwise a
component. -/
def FactoryReports (F : FaissLibrary) (attrs : Value) : Prop :=
  ((∀ m n, attrs = .map m → m.lookup "dimension" ≠ some (.uint n)) ∧
    ∃ e, createVectorStoreComponent F attrs = .ok (.error e)) ∨
  ∃ m n, attrs = .map m ∧ m.lookup "dimension" = some (.uint n) ∧
    ∃ s, createVectorStoreComponent F attrs = .ok (.ok s)

/-! ## The reading of an input -/

variable (getType : Value → String)

/-- An input without an embedding throws. Another one is read exactly when all of its fields have
their types. -/
theorem readAddInput_cases (context path : String) (m : List (String × Value)) :
    (m.lookup "embedding" = none ∧ (Value.map m).addInput? = none ∧
      ∃ f, readAddInput getType context path m = .error f) ∨
    (m.lookup "embedding" ≠ none ∧ (Value.map m).addInput? = none ∧
      ∃ e, readAddInput getType context path m = .ok (.error e)) ∨
    ∃ input, m.lookup "embedding" ≠ none ∧ (Value.map m).addInput? = some input ∧
      readAddInput getType context path m = .ok (.ok input) := by
  unfold readAddInput Value.addInput? Value.mapAt
  dsimp only
  cases hembedding : m.lookup "embedding" with
  | none => exact .inl ⟨rfl, rfl, _, rfl⟩
  | some embedding =>
    cases embedding with
    | ndarray shape dtype data =>
      cases hdocument : m.lookup "document" with
      | none => exact .inr (.inl ⟨Option.some_ne_none _, rfl, _, rfl⟩)
      | some document =>
        cases document with
        | string document =>
          cases hmetadata : m.lookup "metadata" with
          | none => exact .inr (.inr ⟨_, Option.some_ne_none _, rfl, rfl⟩)
          | some metadata =>
            cases metadata with
            | map kvs => exact .inr (.inr ⟨_, Option.some_ne_none _, rfl, rfl⟩)
            | null => exact .inr (.inr ⟨_, Option.some_ne_none _, rfl, rfl⟩)
            | _ => exact .inr (.inl ⟨Option.some_ne_none _, rfl, _, rfl⟩)
        | _ => exact .inr (.inl ⟨Option.some_ne_none _, rfl, _, rfl⟩)
    | _ => exact .inr (.inl ⟨Option.some_ne_none _, rfl, _, rfl⟩)

/-- The loop throws when the first input in which something is wrong has no embedding. -/
theorem readAddInputs_cases (items : List Value) :
    (LacksEmbedding items ∧ ∃ f, readAddInputs getType items = .error f) ∨
    (¬ LacksEmbedding items ∧ items.mapM Value.addInput? = none ∧
      ∃ e, readAddInputs getType items = .ok (.error e)) ∨
    ∃ inputs, ¬ LacksEmbedding items ∧ items.mapM Value.addInput? = some inputs ∧
      readAddInputs getType items = .ok (.ok inputs) := by
  induction items with
  | nil => exact .inr (.inr ⟨[], List.stopsAt_nil, rfl, rfl⟩)
  | cons v items ih =>
    have hcons : LacksEmbedding (v :: items) ↔
        v.LacksEmbedding ∨ v.addInput?.isSome = true ∧ LacksEmbedding items := List.stopsAt_cons
    rw [List.mapM_cons, hcons]
    cases v with
    | map m =>
      unfold readAddInputs
      rcases readAddInput_cases getType "vector_store.insert_many" "inputs." m with
        ⟨hnone, -, f, hread⟩ | ⟨hsome, hwrong, e, hread⟩ | ⟨input, hsome, hinput, hread⟩
      · rw [hread]
        exact .inl ⟨.inl hnone, f, rfl⟩
      · rw [hread, hwrong]
        refine .inr (.inl ⟨?_, rfl, e, rfl⟩)
        rintro (hlacks | ⟨hisSome, -⟩)
        · exact hsome hlacks
        · cases hisSome
      · rw [hread, hinput]
        have hiff : (Value.map m).LacksEmbedding ∨
            (some input).isSome = true ∧ LacksEmbedding items ↔ LacksEmbedding items :=
          ⟨fun h => (h.resolve_left hsome).2, fun h => .inr ⟨rfl, h⟩⟩
        rw [hiff]
        rcases ih with ⟨hlacks, f, hrest⟩ | ⟨hlacks, hwrong, e, hrest⟩ | ⟨inputs, hlacks, hinputs, hrest⟩
        · rw [hrest]
          exact .inl ⟨hlacks, f, rfl⟩
        · rw [hrest, hwrong]
          exact .inr (.inl ⟨hlacks, rfl, e, rfl⟩)
        · rw [hrest, hinputs]
          exact .inr (.inr ⟨input :: inputs, hlacks, rfl, rfl⟩)
    | _ =>
      -- Nothing but a map has fields.
      refine .inr (.inl ⟨?_, rfl, _, rfl⟩)
      rintro (hlacks | ⟨hisSome, -⟩)
      · exact hlacks
      · cases hisSome

/-! ## The single methods -/

namespace FaissStore

variable {s : FaissStore F}

/-- The floats of an embedding are read exactly when they are there. -/
theorem row_cases (s : FaissStore F) (a : Ndarray) :
    (a.Holds (F.d s.index) ∧ ∃ row, s.row a = .ok row) ∨
      (¬ a.Holds (F.d s.index) ∧ ∃ f, s.row a = .error f) := by
  unfold row Ndarray.asVector Ndarray.Holds
  by_cases hdata : 4 * (a.size / 4) ≤ a.data.length
  · rw [readWords_of_le hdata, Except.ok_bind, List.length_map, List.length_range]
    by_cases hdim : F.d s.index ≤ a.size / 4
    · rw [if_pos hdim]
      exact .inl ⟨⟨hdata, hdim⟩, _, rfl⟩
    · rw [if_neg hdim]
      exact .inr ⟨fun h => hdim h.2, _, rfl⟩
  · rw [readWords_of_lt (not_le.mp hdata)]
    exact .inr ⟨fun h => hdata h.1, _, rfl⟩

/-- `add_vector` returns exactly when the embedding has the shape of the store and its data. -/
theorem addVector_cases (s : FaissStore F) (input : AddInput) :
    (s.isValidEmbedding input.embedding = true ∧ input.embedding.Holds (F.d s.index) ∧
      ∃ s' id, s.addVector input = (s', .ok id)) ∨
    (¬ (s.isValidEmbedding input.embedding = true ∧ input.embedding.Holds (F.d s.index)) ∧
      ∃ s' f, s.addVector input = (s', .error f)) := by
  by_cases hvalid : s.isValidEmbedding input.embedding = true
  · rw [addVector_eq hvalid]
    rcases s.row_cases input.embedding with ⟨hholds, row, hrow⟩ | ⟨hholds, f, hrow⟩
    · rw [hrow]
      exact .inl ⟨hvalid, hholds, _, _, rfl⟩
    · rw [hrow]
      exact .inr ⟨fun h => hholds h.2, _, _, rfl⟩
  · unfold addVector
    rw [if_neg hvalid]
    exact .inr ⟨fun h => hvalid h.1, _, _, rfl⟩

/-- `add_vectors` returns exactly when all embeddings are so. -/
theorem addVectors_cases (s : FaissStore F) (inputs : List AddInput) :
    ((∀ input ∈ inputs,
        s.isValidEmbedding input.embedding = true ∧ input.embedding.Holds (F.d s.index)) ∧
      ∃ s' ids, s.addVectors inputs = (s', .ok ids)) ∨
    (¬ (∀ input ∈ inputs,
        s.isValidEmbedding input.embedding = true ∧ input.embedding.Holds (F.d s.index)) ∧
      ∃ s' f, s.addVectors inputs = (s', .error f)) := by
  by_cases hvalid : ∀ input ∈ inputs, s.isValidEmbedding input.embedding = true
  · rw [addVectors_eq hvalid]
    rcases takeRows_rows s inputs with ⟨s', rows, htake, hrows⟩ | ⟨s', f, htake, input, hin, hfail⟩
    · rw [htake]
      refine .inl ⟨fun input hin => ⟨hvalid input hin, ?_⟩, _, _, rfl⟩
      rcases s.row_cases input.embedding with ⟨hholds, -⟩ | ⟨-, f, hfail⟩
      · exact hholds
      · have hmem := List.mem_map_of_mem (f := fun input => s.row input.embedding) hin
        rw [hrows, List.mem_map] at hmem
        obtain ⟨r, -, hr⟩ := hmem
        rw [hfail] at hr
        cases hr
    · rw [htake]
      refine .inr ⟨fun h => ?_, _, _, rfl⟩
      rcases s.row_cases input.embedding with ⟨-, row, hrow⟩ | ⟨hholds, -⟩
      · rw [hrow] at hfail
        cases hfail
      · exact hholds (h input hin).2
  · obtain ⟨input, hin, hinvalid⟩ : ∃ input ∈ inputs,
        ¬ s.isValidEmbedding input.embedding = true := by simpa using hvalid
    obtain ⟨what, hrefuse⟩ := s.addVectors_refuses hin hinvalid
    exact .inr ⟨fun h => hinvalid (h input hin).1, _, _, hrefuse⟩

/-! ## Which calls report -/

theorem not_reports {σ : Type} {wrong : Prop} {s s' : σ} {f : Fault} :
    ¬ Reports wrong s (s', .error f) := by
  rintro (⟨-, e, h⟩ | ⟨-, s'', v, h⟩)
  · cases (Prod.mk.inj h).2
  · cases (Prod.mk.inj h).2

theorem reports_error {σ : Type} {wrong : Prop} (s : σ) {e : ErrorOutput} (h : wrong) :
    Reports wrong s (s, .ok (.error e)) := .inl ⟨h, e, rfl⟩

theorem reports_value {σ : Type} {wrong : Prop} (s s' : σ) {v : Value} (h : ¬ wrong) :
    Reports wrong s (s', .ok (.ok v)) := .inr ⟨h, s', v, rfl⟩

/-- `insert`. -/
theorem insertOp_reports_iff (s : FaissStore F) (v : Value) :
    Reports (StoreOp.Wrong s .insert v) s (s.insertOp getType v) ↔ StoreOp.Safe s .insert v := by
  unfold StoreOp.Wrong StoreOp.Safe
  cases v with
  | map m =>
    unfold insertOp
    dsimp only
    rcases readAddInput_cases getType "vector_store.insert" "" m with
      ⟨hnone, -, f, hread⟩ | ⟨hsome, hwrong, e, hread⟩ | ⟨input, hsome, hinput, hread⟩
    · rw [hread]
      exact iff_of_false not_reports fun h => h.1 hnone
    · rw [hread, hwrong]
      exact iff_of_true (reports_error s fun _ h => absurd h.symm (Option.some_ne_none _))
        ⟨hsome, fun _ h => absurd h.symm (Option.some_ne_none _)⟩
    · rw [hread, hinput]
      dsimp only
      have honly : ∀ {P : AddInput → Prop},
          (∀ input', some input = some input' → P input') ↔ P input :=
        ⟨fun h => h input rfl, fun h input' heq => Option.some.inj heq ▸ h⟩
      rw [honly, honly]
      rcases s.addVector_cases input with ⟨hvalid, hholds, s', id, hadd⟩ | ⟨hnot, s', f, hadd⟩
      · rw [hadd]
        exact iff_of_true (reports_value s s' (not_not_intro hvalid)) ⟨hsome, hvalid, hholds⟩
      · rw [hadd]
        exact iff_of_false not_reports fun h => hnot h.2
  | _ =>
    exact iff_of_true (reports_error s fun _ h => absurd h.symm (Option.some_ne_none _))
      ⟨id, fun _ h => absurd h.symm (Option.some_ne_none _)⟩

/-- `insert_many`. -/
theorem insertManyOp_reports_iff (s : FaissStore F) (v : Value) :
    Reports (StoreOp.Wrong s .insertMany v) s (s.insertManyOp getType v) ↔
      StoreOp.Safe s .insertMany v := by
  unfold StoreOp.Wrong StoreOp.Safe
  cases v with
  | array items =>
    unfold insertManyOp
    have honly : ∀ {P : List Value → Prop}, (∀ vs, Value.array items = .array vs → P vs) ↔ P items :=
      ⟨fun h => h items rfl, fun h vs heq => Value.array.inj heq ▸ h⟩
    have hwrong_iff : (∀ vs inputs, Value.array items = .array vs →
        vs.mapM Value.addInput? = some inputs →
          ∃ input ∈ inputs, ¬ s.isValidEmbedding input.embedding = true) ↔
        ∀ inputs, items.mapM Value.addInput? = some inputs →
          ∃ input ∈ inputs, ¬ s.isValidEmbedding input.embedding = true :=
      ⟨fun h inputs => h items inputs rfl,
        fun h vs inputs heq hvs => h inputs (Value.array.inj heq ▸ hvs)⟩
    dsimp only
    rw [hwrong_iff, honly]
    rcases readAddInputs_cases getType items with
      ⟨hlacks, f, hread⟩ | ⟨hlacks, hwrong, e, hread⟩ | ⟨inputs, hlacks, hinputs, hread⟩
    · rw [hread]
      exact iff_of_false not_reports fun h => h.1 hlacks
    · rw [hread, hwrong]
      exact iff_of_true (reports_error s fun _ h => absurd h.symm (Option.some_ne_none _))
        ⟨hlacks, fun _ h => absurd h.symm (Option.some_ne_none _)⟩
    · rw [hread, hinputs]
      dsimp only
      have hthese : ∀ {P : List AddInput → Prop},
          (∀ inputs', some inputs = some inputs' → P inputs') ↔ P inputs :=
        ⟨fun h => h inputs rfl, fun h inputs' heq => Option.some.inj heq ▸ h⟩
      rw [hthese, hthese]
      rcases s.addVectors_cases inputs with ⟨hall, s', ids, hadd⟩ | ⟨hnot, s', f, hadd⟩
      · rw [hadd]
        refine iff_of_true (reports_value s s' ?_) ⟨hlacks, hall⟩
        rintro ⟨input, hin, hinvalid⟩
        exact hinvalid (hall input hin).1
      · rw [hadd]
        exact iff_of_false not_reports fun h => hnot h.2
  | _ =>
    refine iff_of_true (reports_error s fun vs _ h => ?_) fun vs h => ?_
    · cases h
    · cases h

/-- The `id` is read when it is there. -/
theorem readId_cases (context : String) (v : Value) :
    ((∀ m id, v = .map m → m.lookup "id" ≠ some (.string id)) ∧
      ∃ e, readId getType context v = .error e) ∨
    ∃ m id, v = .map m ∧ m.lookup "id" = some (.string id) ∧
      readId getType context v = .ok id := by
  unfold readId
  cases v with
  | map m =>
    dsimp only
    cases hid : m.lookup "id" with
    | none =>
      refine .inl ⟨fun m' id hm' => ?_, _, rfl⟩
      rw [← Value.map.inj hm', hid]
      exact (Option.some_ne_none _).symm
    | some v =>
      cases v with
      | string id => exact .inr ⟨m, id, rfl, hid, rfl⟩
      | _ =>
        refine .inl ⟨fun m' id hm' => ?_, _, rfl⟩
        rw [← Value.map.inj hm', hid]
        exact fun h => Value.noConfusion (Option.some.inj h)
  | _ => exact .inl ⟨fun m id hm => Value.noConfusion hm, _, rfl⟩

/-- The metadata of every document can be read back. -/
def Legible (s : FaissStore F) : Prop :=
  ∀ i doc, s.documentStore.lookup i = some doc → ∃ v, metadataValue doc.metadata = .ok v

/-- A document that is read, also one that is made for it. -/
theorem Legible.document (h : s.Legible) (i : Int64) :
    (∃ v, metadataValue (documentAt s.documentStore i).2.metadata = .ok v) ∧
      Legible { s with documentStore := (documentAt s.documentStore i).1 } := by
  unfold documentAt UnorderedMap.insertNew
  cases hlookup : s.documentStore.lookup i with
  | some doc =>
    dsimp only
    rw [hlookup]
    exact ⟨h i doc hlookup, h⟩
  | none =>
    dsimp only
    rw [AList.lookup_insert]
    refine ⟨⟨.null, rfl⟩, fun j doc hj => ?_⟩
    rw [UnorderedMap.lookup_insert_eq] at hj
    split_ifs at hj with hij
    · obtain rfl := Option.some.inj hj
      exact ⟨.null, rfl⟩
    · exact h j doc hj

/-- The results of a search, and the documents behind it. -/
theorem Legible.results (h : s.Legible) (found : List (Int64 × ℕ)) :
    (∃ outs, (readResults s.documentStore found).2.mapM RetrieveResult.output = .ok outs) ∧
      Legible { s with documentStore := (readResults s.documentStore found).1 } := by
  induction found generalizing s with
  | nil => exact ⟨⟨[], rfl⟩, h⟩
  | cons r found ih =>
    obtain ⟨⟨v, hv⟩, hdoc⟩ := h.document r.1
    obtain ⟨⟨outs, houts⟩, hrest⟩ := ih hdoc
    have hfirst : ∃ out, RetrieveResult.output
        ⟨int64ToString r.1, (documentAt s.documentStore r.1).2.document,
          (documentAt s.documentStore r.1).2.metadata, r.2⟩ = .ok out := by
      unfold RetrieveResult.output
      dsimp only
      rw [hv]
      exact ⟨_, rfl⟩
    obtain ⟨out, hout⟩ := hfirst
    refine ⟨⟨out :: outs, ?_⟩, hrest⟩
    show List.mapM RetrieveResult.output (⟨int64ToString r.1, _, _, r.2⟩ :: _) = _
    rw [List.mapM_cons]
    exact Except.bind_eq_ok_iff.mpr ⟨out, hout, Except.bind_eq_ok_iff.mpr ⟨outs, houts, rfl⟩⟩

/-- `get_by_id`. -/
theorem getByIdOp_reports (h : s.Legible) (v : Value) :
    Reports (StoreOp.Wrong s .getById v) s (s.getByIdOp getType v) := by
  unfold StoreOp.Wrong getByIdOp
  rcases readId_cases getType "vector_store.get_by_id" v with
    ⟨hwrong, e, hread⟩ | ⟨m, id, rfl, hid, hread⟩
  · rw [hread]
    exact reports_error s hwrong
  rw [hread]
  dsimp only
  have hright : ¬ ∀ m' id', Value.map m = .map m' → m'.lookup "id" ≠ some (.string id') :=
    fun hwrong => hwrong m id rfl hid
  unfold FaissStore.getById
  dsimp only
  cases F.reconstruct s.index (strtoll id) with
  | none => exact reports_value s s hright
  | some row =>
    obtain ⟨⟨metadata, hmetadata⟩, -⟩ := h.document (strtoll id)
    unfold GetResult.output
    dsimp only
    rw [hmetadata]
    exact reports_value s _ hright

/-- `remove`. -/
theorem removeOp_reports (s : FaissStore F) (v : Value) :
    Reports (StoreOp.Wrong s .remove v) s (s.removeOp getType v) := by
  unfold StoreOp.Wrong removeOp
  rcases readId_cases getType "vector_store.remove" v with
    ⟨hwrong, e, hread⟩ | ⟨m, id, rfl, hid, hread⟩
  · rw [hread]
    exact reports_error s hwrong
  · rw [hread]
    exact reports_value s _ fun hwrong => hwrong m id rfl hid

/-- `top_k` is read when it is an integer. -/
theorem readTopK_cases (v : Value) :
    (v.integer? = none ∧ ∃ e, readTopK getType v = .error e) ∨
      ∃ (n : ℤ) (k : UInt64), v.integer? = some n ∧ readTopK getType v = .ok k ∧
        (0 ≤ n ∧ n < 2 ^ 63 ↔ k.toNat < 2 ^ 63) ∧ (0 ≤ n → n = k.toNat) := by
  cases hn : v.integer? with
  | none =>
    refine .inl ⟨rfl, ?_⟩
    cases v with
    | uint n => cases hn
    | int n => cases hn
    | _ => exact ⟨_, rfl⟩
  | some n =>
    obtain ⟨k, hk, hwrap, hlow, hhigh⟩ := readTopK_of_integer getType hn
    unfold wrap at hwrap
    exact .inr ⟨n, k, rfl, hk, by omega, by omega⟩

/-- `retrieve`, on a query and a number of results. -/
theorem retrieve_cases (h : s.Legible) (q : Ndarray) {n : ℤ} {k : UInt64}
    (hbound : 0 ≤ n ∧ n < 2 ^ 63 ↔ k.toNat < 2 ^ 63) (hcast : 0 ≤ n → n = k.toNat) :
    ((s.isValidEmbedding q = true ∧ 0 ≤ n ∧ n < 2 ^ 63 ∧
        (min (F.ntotal s.index : ℤ) n = 0 ∨
          q.Holds (F.d s.index) ∧ min (F.ntotal s.index : ℤ) n < 2 ^ 31)) ∧
      ∃ s' results outs, s.retrieve q k = (s', .ok results) ∧
        results.mapM RetrieveResult.output = .ok outs) ∨
    (¬ (s.isValidEmbedding q = true ∧ 0 ≤ n ∧ n < 2 ^ 63 ∧
        (min (F.ntotal s.index : ℤ) n = 0 ∨
          q.Holds (F.d s.index) ∧ min (F.ntotal s.index : ℤ) n < 2 ^ 31)) ∧
      ∃ s' f, s.retrieve q k = (s', .error f)) := by
  by_cases hvalid : s.isValidEmbedding q = true
  · rw [retrieve_eq hvalid]
    by_cases hlarge : 2 ^ 63 ≤ k.toNat
    · rw [if_pos hlarge]
      exact .inr ⟨fun h => absurd (hbound.mp ⟨h.2.1, h.2.2.1⟩) (by omega), _, _, rfl⟩
    obtain ⟨hnonneg, hlt⟩ := hbound.mpr (by omega)
    have hn := hcast hnonneg
    rw [if_neg hlarge]
    by_cases hzero : min (F.ntotal s.index) k.toNat = 0
    · rw [if_pos hzero]
      exact .inl ⟨⟨hvalid, hnonneg, hlt, .inl (by omega)⟩, s, [], [], rfl, rfl⟩
    rw [if_neg hzero]
    rcases s.row_cases q with ⟨hholds, row, hrow⟩ | ⟨hholds, f, hrow⟩
    · rw [hrow]
      dsimp only
      by_cases hloop : 2 ^ 31 ≤ min (F.ntotal s.index) k.toNat
      · rw [if_pos hloop]
        refine .inr ⟨fun h => ?_, _, _, rfl⟩
        rcases h.2.2.2 with hmin | ⟨-, hmin⟩ <;> omega
      · rw [if_neg hloop]
        obtain ⟨⟨outs, houts⟩, -⟩ :=
          h.results (F.search s.index row (min (F.ntotal s.index) k.toNat))
        exact .inl ⟨⟨hvalid, hnonneg, hlt, .inr ⟨hholds, by omega⟩⟩, _, _, outs, rfl, houts⟩
    · rw [hrow]
      refine .inr ⟨fun h => ?_, _, _, rfl⟩
      rcases h.2.2.2 with hmin | ⟨hholds', -⟩
      · omega
      · exact hholds hholds'
  · unfold FaissStore.retrieve
    rw [if_neg hvalid]
    exact .inr ⟨fun h => hvalid h.1, _, _, rfl⟩

/-- `retrieve`. -/
theorem retrieveOp_reports_iff (h : s.Legible) (v : Value) :
    Reports (StoreOp.Wrong s .retrieve v) s (s.retrieveOp getType v) ↔
      StoreOp.Safe s .retrieve v := by
  unfold StoreOp.Wrong StoreOp.Safe
  dsimp only
  -- Without a query and an integer, nothing is asked of the store.
  have hearly : ∀ {reply : FaissStore F × Except Fault (Except ErrorOutput Value)},
      (∀ m q n, v = .map m → m.lookup "query_embedding" = some (Ndarray.value q) →
        (m.lookup "top_k").bind Value.integer? = some n → False) →
      (∃ e, reply = (s, .ok (.error e))) →
      (Reports (∀ m q n, v = .map m → m.lookup "query_embedding" = some (Ndarray.value q) →
        (m.lookup "top_k").bind Value.integer? = some n → ¬ s.isValidEmbedding q = true) s reply ↔
      ∀ m q n, v = .map m → m.lookup "query_embedding" = some (Ndarray.value q) →
        (m.lookup "top_k").bind Value.integer? = some n →
        s.isValidEmbedding q = true ∧ 0 ≤ n ∧ n < 2 ^ 63 ∧
          (min (F.ntotal s.index : ℤ) n = 0 ∨
            q.Holds (F.d s.index) ∧ min (F.ntotal s.index : ℤ) n < 2 ^ 31)) := by
    rintro reply hnone ⟨e, rfl⟩
    exact iff_of_true (reports_error s fun m q n hm hq hn => (hnone m q n hm hq hn).elim)
      fun m q n hm hq hn => (hnone m q n hm hq hn).elim
  unfold retrieveOp
  cases v with
  | map m =>
    dsimp only
    cases hquery : m.lookup "query_embedding" with
    | none =>
      refine hearly (fun m' q n hm hq _ => ?_) ⟨_, rfl⟩
      rw [← Value.map.inj hm, hquery] at hq
      cases hq
    | some query =>
      cases query with
      | ndarray shape dtype data =>
        cases htop : m.lookup "top_k" with
        | none =>
          refine hearly (fun m' q n hm _ hn => ?_) ⟨_, rfl⟩
          rw [← Value.map.inj hm, htop] at hn
          cases hn
        | some top =>
          rcases readTopK_cases getType top with ⟨hnone, e, hread⟩ | ⟨n, k, hn, hread, hbound, hcast⟩
          · dsimp only
            rw [hread]
            refine hearly (fun m' q n hm _ hn => ?_) ⟨e, rfl⟩
            rw [← Value.map.inj hm, htop, Option.bind_some, hnone] at hn
            cases hn
          · dsimp only
            rw [hread]
            dsimp only
            have hthese : ∀ {P : Ndarray → ℤ → Prop}, (∀ m' q' n', Value.map m = .map m' →
                m'.lookup "query_embedding" = some (Ndarray.value q') →
                (m'.lookup "top_k").bind Value.integer? = some n' → P q' n') ↔
                P ⟨shape, dtype, data⟩ n := by
              intro P
              constructor
              · exact fun h => h m ⟨shape, dtype, data⟩ n rfl hquery (by rw [htop]; exact hn)
              · rintro h m' ⟨shape', dtype', data'⟩ n' hm hq hn'
                rw [← Value.map.inj hm] at hq hn'
                rw [hquery] at hq
                rw [htop, Option.bind_some, hn] at hn'
                obtain ⟨rfl, rfl, rfl⟩ := Value.ndarray.inj (Option.some.inj hq)
                exact Option.some.inj hn' ▸ h
            rw [hthese (P := fun q _ => ¬ s.isValidEmbedding q = true), hthese]
            rcases retrieve_cases h ⟨shape, dtype, data⟩ hbound hcast with
              ⟨hsafe, s', results, outs, hretrieve, houts⟩ | ⟨hsafe, s', f, hretrieve⟩
            · rw [hretrieve]
              dsimp only
              rw [houts]
              exact iff_of_true (reports_value s s' (not_not_intro hsafe.1)) hsafe
            · rw [hretrieve]
              exact iff_of_false not_reports hsafe
      | _ =>
        refine hearly (fun m' q n hm hq _ => ?_) ⟨_, rfl⟩
        rw [← Value.map.inj hm, hquery] at hq
        cases Option.some.inj hq
  | _ =>
    exact hearly (fun m q n hm _ _ => by cases hm) ⟨_, rfl⟩

/-! ## The stores that operators reach -/

/-- An entry of a map is a value of its own. -/
theorem child_of_lookup {m : List (String × Value)} {key : String} {v : Value}
    (h : m.lookup key = some v) : v.Child (.map m) := by
  obtain ⟨front, back, rfl, -⟩ := List.lookup_eq_some_iff.mp h
  show v ∈ (front ++ (key, v) :: back).map Prod.snd
  simp

/-- The inputs of a list are those of its values. -/
theorem mem_of_mapM {vs : List Value} {inputs : List AddInput}
    (h : vs.mapM Value.addInput? = some inputs) {input : AddInput} (hin : input ∈ inputs) :
    ∃ v ∈ vs, v.addInput? = some input := by
  induction vs generalizing inputs with
  | nil =>
    obtain rfl := Option.some.inj h
    cases hin
  | cons v vs ih =>
    rw [List.mapM_cons] at h
    obtain ⟨first, hfirst, h⟩ := Option.bind_eq_some_iff.mp h
    obtain ⟨rest, hrest, h⟩ := Option.bind_eq_some_iff.mp h
    obtain rfl : first :: rest = inputs := Option.some.inj h
    rcases List.mem_cons.mp hin with rfl | hin
    · exact ⟨v, List.mem_cons_self, hfirst⟩
    · obtain ⟨u, hu, hinput⟩ := ih hrest hin
      exact ⟨u, List.mem_cons_of_mem v hu, hinput⟩

/-- The metadata of an input can be read back. -/
theorem legible_addInput {v : Value} (hv : v.Valid) (hs : v.Small) {input : AddInput}
    (h : v.addInput? = some input) : ∃ w, metadataValue input.metadata = .ok w := by
  cases v with
  | map m =>
    unfold Value.addInput? at h
    dsimp only at h
    split at h
    · obtain ⟨j, hj, rfl⟩ := Option.map_eq_some_iff.mp h
      cases hmetadata : m.lookup "metadata" with
      | none =>
        rw [hmetadata] at hj
        obtain rfl := Option.some.inj hj
        exact ⟨.map [], rfl⟩
      | some u =>
        rw [hmetadata] at hj
        have hchild := child_of_lookup hmetadata
        cases u with
        | map kvs =>
          obtain rfl := Option.some.inj hj
          exact exists_metadataValue _ (hv.child hchild) (hs.child hchild)
        | null =>
          obtain rfl := Option.some.inj hj
          exact ⟨.null, rfl⟩
        | _ => cases hj
    · cases h
  | _ => cases h

theorem Legible.insert (h : s.Legible) (doc : Document)
    (hdoc : ∃ v, metadataValue doc.metadata = .ok v) (i : Int64) :
    Legible { s with documentStore := s.documentStore.insert i doc } := by
  intro j doc' hj
  dsimp only at hj
  rw [UnorderedMap.lookup_insert_eq] at hj
  split_ifs at hj
  · obtain rfl := Option.some.inj hj
    exact hdoc
  · exact h j doc' hj

theorem Legible.putDocuments (h : s.Legible) {inputs : List AddInput}
    (hinputs : ∀ input ∈ inputs, ∃ v, metadataValue input.metadata = .ok v) (ids : List Int64) :
    Legible { s with documentStore := FaissStore.putDocuments s.documentStore ids inputs } := by
  induction ids generalizing s inputs with
  | nil => exact h
  | cons id ids ih =>
    cases inputs with
    | nil => exact h
    | cons input inputs =>
      obtain ⟨hinput, hrest⟩ := List.forall_mem_cons.mp hinputs
      exact ih (h.insert ⟨input.document, input.metadata⟩ hinput id) hrest

/-- `add_vector`. -/
theorem Legible.addVector (h : s.Legible) {input : AddInput}
    (hinput : ∃ v, metadataValue input.metadata = .ok v) : (s.addVector input).1.Legible := by
  by_cases hvalid : s.isValidEmbedding input.embedding = true
  · rw [addVector_eq hvalid]
    cases s.row input.embedding with
    | error f => exact h
    | ok row => exact h.insert ⟨input.document, input.metadata⟩ hinput s.idCounter
  · unfold FaissStore.addVector
    rw [if_neg hvalid]
    exact h

/-- `add_vectors`. -/
theorem Legible.addVectors (h : s.Legible) {inputs : List AddInput}
    (hinputs : ∀ input ∈ inputs, ∃ v, metadataValue input.metadata = .ok v) :
    (s.addVectors inputs).1.Legible := by
  by_cases hvalid : ∀ input ∈ inputs, s.isValidEmbedding input.embedding = true
  · rw [addVectors_eq hvalid]
    obtain ⟨n, hcounter⟩ := takeRows_counter s inputs
    rcases htake : s.takeRows inputs with ⟨s', f | rows⟩
    · rw [htake] at hcounter
      obtain rfl : s' = _ := hcounter
      exact h
    · rw [htake] at hcounter
      obtain rfl : s' = _ := hcounter
      exact h.putDocuments hinputs (rows.map Prod.fst)
  · obtain ⟨input, hin, hinvalid⟩ : ∃ input ∈ inputs,
        ¬ s.isValidEmbedding input.embedding = true := by simpa using hvalid
    obtain ⟨what, hrefuse⟩ := s.addVectors_refuses hin hinvalid
    rw [hrefuse]
    exact h

/-- `retrieve` of the store. -/
theorem Legible.retrieve (h : s.Legible) (q : Ndarray) (topK : UInt64) :
    (s.retrieve q topK).1.Legible := by
  by_cases hvalid : s.isValidEmbedding q = true
  · rw [retrieve_eq hvalid]
    by_cases hlarge : 2 ^ 63 ≤ topK.toNat
    · rw [if_pos hlarge]
      exact h
    rw [if_neg hlarge]
    by_cases hzero : min (F.ntotal s.index) topK.toNat = 0
    · rw [if_pos hzero]
      exact h
    rw [if_neg hzero]
    cases s.row q with
    | error f => exact h
    | ok row =>
      dsimp only
      by_cases hloop : 2 ^ 31 ≤ min (F.ntotal s.index) topK.toNat
      · rw [if_pos hloop]
        exact h
      · rw [if_neg hloop]
        exact (h.results _).2
  · unfold FaissStore.retrieve
    rw [if_neg hvalid]
    exact h

/-- The operator `retrieve` leaves the store that the store's own `retrieve` leaves, if it is called
at all. -/
theorem retrieveOp_store (s : FaissStore F) (v : Value) :
    (s.retrieveOp getType v).1 = s ∨ ∃ q k, (s.retrieveOp getType v).1 = (s.retrieve q k).1 := by
  unfold retrieveOp
  split
  · split
    · exact .inl rfl
    · rename_i shape dtype data _
      split
      · exact .inl rfl
      · split
        · exact .inl rfl
        · rename_i k _
          refine .inr ⟨⟨shape, dtype, data⟩, k, ?_⟩
          rcases s.retrieve ⟨shape, dtype, data⟩ k with ⟨s', f | results⟩
          · rfl
          · rfl
    · exact .inl rfl
  · exact .inl rfl

/-- A call of any method. -/
theorem Legible.operator (h : s.Legible) (op : StoreOp) {v : Value} (hv : v.Valid) (hs : v.Small) :
    (s.operator getType op v).1.Legible := by
  cases op with
  | insert =>
    show (s.insertOp getType v).1.Legible
    cases v with
    | map m =>
      unfold insertOp
      dsimp only
      rcases readAddInput_cases getType "vector_store.insert" "" m with
        ⟨-, -, f, hread⟩ | ⟨-, -, e, hread⟩ | ⟨input, -, hinput, hread⟩
      · rw [hread]
        exact h
      · rw [hread]
        exact h
      · rw [hread]
        have hadd := h.addVector (legible_addInput hv hs hinput)
        dsimp only
        rcases hadd' : s.addVector input with ⟨s', f | id⟩ <;> rw [hadd'] at hadd
        · exact hadd
        · exact hadd
    | _ => exact h
  | insertMany =>
    show (s.insertManyOp getType v).1.Legible
    cases v with
    | array items =>
      unfold insertManyOp
      dsimp only
      rcases readAddInputs_cases getType items with
        ⟨-, f, hread⟩ | ⟨-, -, e, hread⟩ | ⟨inputs, -, hinputs, hread⟩
      · rw [hread]
        exact h
      · rw [hread]
        exact h
      · rw [hread]
        have hadd : (s.addVectors inputs).1.Legible := by
          refine h.addVectors fun input hin => ?_
          obtain ⟨u, hu, hinput⟩ := mem_of_mapM hinputs hin
          exact legible_addInput (hv.child hu) (hs.child hu) hinput
        dsimp only
        rcases hadd' : s.addVectors inputs with ⟨s', f | ids⟩ <;> rw [hadd'] at hadd
        · exact hadd
        · exact hadd
    | _ => exact h
  | getById =>
    show (s.getByIdOp getType v).1.Legible
    unfold getByIdOp
    cases readId getType "vector_store.get_by_id" v with
    | error e => exact h
    | ok id =>
      dsimp only
      unfold FaissStore.getById
      dsimp only
      cases F.reconstruct s.index (strtoll id) with
      | none => exact h
      | some row => exact (h.document (strtoll id)).2
  | retrieve =>
    show (s.retrieveOp getType v).1.Legible
    rcases s.retrieveOp_store getType v with hsame | ⟨q, k, hretrieve⟩
    · rw [hsame]
      exact h
    · rw [hretrieve]
      exact h.retrieve q k
  | remove =>
    show (s.removeOp getType v).1.Legible
    unfold removeOp
    cases readId getType "vector_store.remove" v with
    | error e => exact h
    | ok id =>
      intro j doc hj
      have hlookup : (s.documentStore.erase (strtoll id)).lookup j = some doc := hj
      rw [UnorderedMap.lookup_erase_eq] at hlookup
      split_ifs at hlookup
      exact h j doc hlookup
  | clear =>
    intro j doc hj
    have hlookup : (∅ : UnorderedMap Int64 Document).lookup j = some doc := hj
    rw [AList.lookup_empty] at hlookup
    cases hlookup

/-- Calls of any methods. -/
theorem Legible.afterOps (h : s.Legible) {calls : List (StoreOp × Value)}
    (hcalls : ∀ c ∈ calls, c.2.Valid ∧ c.2.Small) : (s.afterOps getType calls).Legible := by
  unfold FaissStore.afterOps
  induction calls generalizing s with
  | nil => exact h
  | cons c calls ih =>
    obtain ⟨⟨hv, hs⟩, hrest⟩ := List.forall_mem_cons.mp hcalls
    exact ih (h.operator getType c.1 hv hs) hrest

theorem make_legible (F : FaissLibrary) (d : ℕ) : (make F d).Legible := by
  intro i doc hlookup
  have hempty : (∅ : UnorderedMap Int64 Document).lookup i = some doc := hlookup
  rw [AList.lookup_empty] at hempty
  cases hempty

/-- The methods, in a store whose metadata can be read back. -/
theorem Legible.reports_iff (h : s.Legible) (op : StoreOp) (v : Value) :
    Reports (op.Wrong s v) s (s.operator getType op v) ↔ op.Safe s v := by
  cases op with
  | insert => exact insertOp_reports_iff getType s v
  | insertMany => exact insertManyOp_reports_iff getType s v
  | getById => exact iff_of_true (getByIdOp_reports getType h v) trivial
  | retrieve => exact retrieveOp_reports_iff getType h v
  | remove => exact iff_of_true (removeOp_reports getType s v) trivial
  | clear => exact iff_of_true (reports_value s s.clear id) trivial

end FaissStore

/-- The factory reports only when there is nothing to report. -/
theorem factoryReports_iff (F : FaissLibrary) (attrs : Value) :
    FactoryReports F attrs ↔ ∃ m n, attrs = .map m ∧ m.lookup "dimension" = some (.uint n) := by
  constructor
  · rintro (⟨-, e, h⟩ | ⟨m, n, hm, hn, -⟩)
    · cases attrs with
      | map m =>
        obtain ⟨v, -, h⟩ := Except.bind_eq_ok_iff.mp h
        obtain ⟨n, -, h⟩ := Except.bind_eq_ok_iff.mp h
        cases Except.ok.inj h
      | _ => cases h
    · exact ⟨m, n, hm, hn⟩
  · rintro ⟨m, n, rfl, hn⟩
    refine .inr ⟨m, n, rfl, hn, .make F n.toNat, ?_⟩
    unfold createVectorStoreComponent Value.mapAt
    dsimp only
    rw [hn]
    rfl

end Ailoy
