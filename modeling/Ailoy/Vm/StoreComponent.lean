import Ailoy.Vm.Methods
import Ailoy.Vm.StoreOperators
import Ailoy.Vm.StoreRuns

/-!
# The component of the vector store

The component that `create_vector_store_component` of `vm/src/vector_store.hpp` makes for the Faiss
store: its methods are operators over the store, under their names. As long as fewer than `2^64` ids
are issued and the calls are proper (`StoreOp.Proper`), its answers are those of a collection of
records (`Answered`), from the input values up to the output values (`legal_store`).
-/

namespace Ailoy

open SequentialObject FaissStore

variable {F : FaissLibrary} {σ ω : Type}

/-! ## The component -/

section Code

variable (getType : Value → String)

/-- A method as an operator calls it. It throws what the store throws. -/
def FaissStore.method (op : StoreOp) (s : FaissStore F) :
    Option Value → Except Fault (Except ErrorOutput Value × FaissStore F)
  | none => .error .nullDereference
  | some inputs =>
    match s.operator getType op inputs with
    | (_, .error f) => .error f
    | (s, .ok output) => .ok (output, s)

/-- The name of a method. -/
def StoreOp.name : StoreOp → String
  | .insert => "insert"
  | .insertMany => "insert_many"
  | .getById => "get_by_id"
  | .retrieve => "retrieve"
  | .remove => "remove"
  | .clear => "clear"

variable (e : Embedding (MethodState (FaissStore F)) σ)

/-- A method among the operators of the VM. -/
def storeMethod (op : StoreOp) : OperatorCode σ :=
  (instantMethodOperator (FaissStore.method getType op)).lift e

/-- The methods of the component. -/
def storeOps : UnorderedMap String (OperatorCode σ) :=
  [StoreOp.insert, .insertMany, .getById, .retrieve, .remove, .clear].foldl
    (fun ops op => ops.insert op.name (storeMethod getType e op)) ∅

/-- The factory `faiss_vector_store`. -/
def vectorStoreFactory : ComponentFactory σ ω := fun attrs env => do
  let store ← createVectorStoreComponent F attrs
  return (store.map fun s => ⟨storeOps getType e, e.put ⟨s, none⟩⟩, env)

end Code

/-! ## What clients are answered -/

/-- What a call of a method is answered with by a collection of records, and the collection behind
it. -/
inductive Answered (c : Collection String AddInput) :
    StoreOp → Value → Output → Collection String AddInput → Prop
  | refuse {op : StoreOp} {v : Value} {err : ErrorOutput} : Answered c op v (.error err) c
  | insert {v : Value} {input : AddInput} {k : String} : v.addInput? = some input → k ∉ c.issued →
      Answered c .insert v (.ok (.map [("id", .string k)]) true) (c.insertOne k input)
  | insertMany {vs : List Value} {inputs : List AddInput} {ks : List String} :
      vs.mapM Value.addInput? = some inputs → ks.length = inputs.length → ks.Nodup →
      (∀ k ∈ ks, k ∉ c.issued) →
      Answered c .insertMany (.array vs) (.ok (.map [("ids", .array (ks.map .string))]) true)
        (c.insert (ks.zip inputs))
  | absent {m : List (String × Value)} {k : String} : m.lookup "id" = some (.string k) →
      c.live k = none → Answered c .getById (.map m) (.ok .null true) c
  | get {m : List (String × Value)} {k : String} {input : AddInput} {v : Value} :
      m.lookup "id" = some (.string k) → c.live k = some input →
      GetResult.output ⟨k, input.document, input.metadata, input.embedding⟩ = .ok v →
      Answered c .getById (.map m) (.ok v true) c
  | retrieve {m : List (String × Value)} {n : ℕ} {topK : ℤ} {results : List RetrieveResult}
      {vs : List Value} : (m.lookup "top_k").bind Value.integer? = some topK → c.HasCount n →
      (results.length : ℤ) = min (n : ℤ) topK → (results.map RetrieveResult.id).Nodup →
      (∀ r ∈ results, ∃ input, c.live r.id = some input ∧ r.document = input.document ∧
        r.metadata = input.metadata) →
      results.mapM RetrieveResult.output = .ok vs →
      Answered c .retrieve (.map m) (.ok (.map [("results", .array vs)]) true) c
  | remove {m : List (String × Value)} {k : String} : m.lookup "id" = some (.string k) →
      Answered c .remove (.map m) (.ok (.bool true) true) (c.remove k)
  | clear {v : Value} : Answered c .clear v (.ok (.bool true) true) c.clear

/-- A proper call for embeddings of the dimension `d`: embeddings have the dimension and finite
floats, the id of a record is the text of a number, and there are fewer than `2^31` results. -/
def StoreOp.Proper (d : ℕ) : StoreOp → Value → Prop
  | .insert, v => ∀ input, v.addInput? = some input →
    input.embedding.IsEmbedding d ∧ FiniteFloats (input.embedding.floats d)
  | .insertMany, v => ∀ vs inputs, v = .array vs → vs.mapM Value.addInput? = some inputs →
    ∀ input ∈ inputs, input.embedding.IsEmbedding d ∧ FiniteFloats (input.embedding.floats d)
  | .getById, v | .remove, v => ∀ m k, v = .map m → m.lookup "id" = some (.string k) →
    ∃ i, k = int64ToString i
  | .retrieve, v => ∀ m q n, v = .map m → m.lookup "query_embedding" = some (Ndarray.value q) →
    (m.lookup "top_k").bind Value.integer? = some n →
    q.IsEmbedding d ∧ FiniteFloats (q.floats d) ∧ n < 2 ^ 31
  | .clear, _ => True

/-- How many ids a call may issue. -/
def StoreOp.ids : StoreOp → Value → ℕ
  | .insert, _ => 1
  | .insertMany, .array vs => vs.length
  | _, _ => 0

/-! ## The methods one by one -/

variable {doc : F.Documented} {d : ℕ} {s s' : FaissStore F} {c : Collection String AddInput}

/-- The store stands for a collection of records with finite floats. -/
structure FaissStore.StandsFor (doc : F.Documented) (d : ℕ) (s : FaissStore F)
    (c : Collection String AddInput) : Prop where
  refines : s.Refines doc d c
  finite : ∀ k input, c.live k = some input → FiniteFloats (input.embedding.floats d)

/-- What a method has to do to the collection, when it returns `output` and leaves the store `s'`. -/
def AnswersFor (doc : F.Documented) (d : ℕ) (c : Collection String AddInput) (op : StoreOp) (v : Value)
    (s' : FaissStore F) (output : Except ErrorOutput Value) : Prop :=
  ∃ c', Answered c op v (.ofResult output) c' ∧ s'.StandsFor doc d c' ∧
    c'.issued.length ≤ c.issued.length + op.ids v

/-- An error that leaves the store alone. -/
theorem FaissStore.StandsFor.refuse (h : s.StandsFor doc d c) (op : StoreOp) (v : Value) (err : ErrorOutput) :
    AnswersFor doc d c op v s (.error err) :=
  ⟨c, .refuse, h, Nat.le_add_right _ _⟩

theorem length_of_mapM {vs : List Value} {inputs : List AddInput}
    (h : vs.mapM Value.addInput? = some inputs) : vs.length = inputs.length := by
  induction vs generalizing inputs with
  | nil =>
    obtain rfl := Option.some.inj h
    rfl
  | cons v vs ih =>
    rw [List.mapM_cons] at h
    obtain ⟨first, -, h⟩ := Option.bind_eq_some_iff.mp h
    obtain ⟨rest, hrest, h⟩ := Option.bind_eq_some_iff.mp h
    obtain rfl : first :: rest = inputs := Option.some.inj h
    rw [List.length_cons, List.length_cons, ih hrest]

namespace FaissStore.StandsFor

variable {getType : Value → String} {output : Except ErrorOutput Value}

theorem insertOp (h : s.StandsFor doc d c) (hd : d < 2 ^ 31) {v : Value}
    (hproper : StoreOp.insert.Proper d v) (hle : c.issued.length + 1 ≤ 2 ^ 64)
    (hop : s.insertOp getType v = (s', .ok output)) : AnswersFor doc d c .insert v s' output := by
  unfold FaissStore.insertOp at hop
  cases v with
  | map m =>
    dsimp only at hop
    rcases readAddInput_cases getType "vector_store.insert" "" m with
      ⟨-, -, f, hread⟩ | ⟨-, -, err, hread⟩ | ⟨input, -, hinput, hread⟩
    · rw [hread] at hop
      cases (Prod.mk.inj hop).2
    · rw [hread] at hop
      obtain ⟨rfl, hout⟩ := Prod.mk.inj hop
      obtain rfl := Except.ok.inj hout
      exact h.refuse _ _ _
    · rw [hread] at hop
      obtain ⟨hembedding, hfloats⟩ := hproper input hinput
      obtain ⟨hreply, hnext, hfresh⟩ := addVector_refines h.refines hd hembedding hle
      dsimp only at hop
      rw [← Prod.mk.eta (p := s.addVector input), hreply] at hop
      obtain ⟨rfl, hout⟩ := Prod.mk.inj hop
      obtain rfl := Except.ok.inj hout
      refine ⟨_, .insert hinput hfresh, ⟨hnext, fun k input' hlive => ?_⟩, ?_⟩
      · by_cases hk : k = int64ToString s.idCounter
        · obtain rfl := Option.some.inj ((if_pos hk).symm.trans hlive)
          exact hfloats
        · exact h.finite k input' ((if_neg hk).symm.trans hlive)
      · simp [Collection.insertOne, StoreOp.ids]
  | _ =>
    obtain ⟨rfl, hout⟩ := Prod.mk.inj hop
    obtain rfl := Except.ok.inj hout
    exact h.refuse _ _ _

theorem insertManyOp (h : s.StandsFor doc d c) (hd : d < 2 ^ 31) {v : Value}
    (hproper : StoreOp.insertMany.Proper d v)
    (hle : c.issued.length + StoreOp.insertMany.ids v ≤ 2 ^ 64)
    (hop : s.insertManyOp getType v = (s', .ok output)) :
    AnswersFor doc d c .insertMany v s' output := by
  unfold FaissStore.insertManyOp at hop
  cases v with
  | array vs =>
    dsimp only at hop
    rcases readAddInputs_cases getType vs with
      ⟨-, f, hread⟩ | ⟨-, -, err, hread⟩ | ⟨inputs, -, hinputs, hread⟩
    · rw [hread] at hop
      cases (Prod.mk.inj hop).2
    · rw [hread] at hop
      obtain ⟨rfl, hout⟩ := Prod.mk.inj hop
      obtain rfl := Except.ok.inj hout
      exact h.refuse _ _ _
    · rw [hread] at hop
      have hall := hproper vs inputs rfl hinputs
      have hlen : vs.length = inputs.length := length_of_mapM hinputs
      obtain ⟨ids, hreply, hlength, hnodup, hfresh, hnext⟩ := addVectors_refines h.refines hd
        (fun input hin => (hall input hin).1) (by rw [← hlen]; exact hle)
      dsimp only at hop
      rw [← Prod.mk.eta (p := s.addVectors inputs), hreply] at hop
      obtain ⟨rfl, hout⟩ := Prod.mk.inj hop
      obtain rfl := Except.ok.inj hout
      refine ⟨_, .insertMany hinputs hlength hnodup hfresh, ⟨hnext, fun k input hlive => ?_⟩, ?_⟩
      · rcases c.live_insert hlive with hmem | hold
        · exact (hall input (List.of_mem_zip hmem).2).2
        · exact h.finite k input hold
      · rw [Collection.issued_insert]
        simp [StoreOp.ids, hlength, hlen]
  | _ =>
    obtain ⟨rfl, hout⟩ := Prod.mk.inj hop
    obtain rfl := Except.ok.inj hout
    exact h.refuse _ _ _

theorem getByIdOp (h : s.StandsFor doc d c) {v : Value} (hproper : StoreOp.getById.Proper d v)
    (hop : s.getByIdOp getType v = (s', .ok output)) : AnswersFor doc d c .getById v s' output := by
  unfold FaissStore.getByIdOp at hop
  rcases readId_cases getType "vector_store.get_by_id" v with ⟨-, err, hread⟩ | ⟨m, k, rfl, hid, hread⟩
  · rw [hread] at hop
    obtain ⟨rfl, hout⟩ := Prod.mk.inj hop
    obtain rfl := Except.ok.inj hout
    exact h.refuse _ _ _
  · rw [hread] at hop
    obtain ⟨i, rfl⟩ := hproper m k rfl hid
    dsimp only at hop
    rw [getById_refines h.refines i] at hop
    cases hlive : c.live (int64ToString i) with
    | none =>
      rw [hlive] at hop
      obtain ⟨rfl, hout⟩ := Prod.mk.inj hop
      obtain rfl := Except.ok.inj hout
      exact ⟨c, .absent hid hlive, h, Nat.le_add_right _ _⟩
    | some input =>
      rw [hlive] at hop
      obtain ⟨rfl, hout⟩ := Prod.mk.inj hop
      obtain ⟨w, hw, rfl⟩ := Except.map_eq_ok_iff.mp hout
      exact ⟨c, .get hid hlive hw, h, Nat.le_add_right _ _⟩

theorem removeOp (h : s.StandsFor doc d c) {v : Value} (hproper : StoreOp.remove.Proper d v)
    (hop : s.removeOp getType v = (s', .ok output)) : AnswersFor doc d c .remove v s' output := by
  unfold FaissStore.removeOp at hop
  rcases readId_cases getType "vector_store.remove" v with ⟨-, err, hread⟩ | ⟨m, k, rfl, hid, hread⟩
  · rw [hread] at hop
    obtain ⟨rfl, hout⟩ := Prod.mk.inj hop
    obtain rfl := Except.ok.inj hout
    exact h.refuse _ _ _
  · rw [hread] at hop
    obtain ⟨i, rfl⟩ := hproper m k rfl hid
    obtain ⟨rfl, hout⟩ := Prod.mk.inj hop
    obtain rfl := Except.ok.inj hout
    refine ⟨_, .remove hid, ⟨removeVector_refines h.refines i, fun k input hlive => ?_⟩,
      Nat.le_add_right _ _⟩
    simp only [Collection.remove] at hlive
    split_ifs at hlive
    exact h.finite k input hlive

theorem retrieveOp (h : s.StandsFor doc d c) (hd : d < 2 ^ 31) {v : Value}
    (hproper : StoreOp.retrieve.Proper d v) (hop : s.retrieveOp getType v = (s', .ok output)) :
    AnswersFor doc d c .retrieve v s' output := by
  unfold FaissStore.retrieveOp at hop
  cases v with
  | map m =>
    dsimp only at hop
    split at hop
    · obtain ⟨rfl, hout⟩ := Prod.mk.inj hop
      obtain rfl := Except.ok.inj hout
      exact h.refuse _ _ _
    · rename_i shape dtype data hquery
      split at hop
      · obtain ⟨rfl, hout⟩ := Prod.mk.inj hop
        obtain rfl := Except.ok.inj hout
        exact h.refuse _ _ _
      · rename_i top htop
        rcases readTopK_cases getType top with ⟨-, err, hread⟩ | ⟨n, k, hn, hread, hbound, hcast⟩
        · rw [hread] at hop
          obtain ⟨rfl, hout⟩ := Prod.mk.inj hop
          obtain rfl := Except.ok.inj hout
          exact h.refuse _ _ _
        · rw [hread] at hop
          have htopK : (m.lookup "top_k").bind Value.integer? = some n := by
            rw [htop]
            exact hn
          obtain ⟨hq, hfloats, hsmall⟩ := hproper m ⟨shape, dtype, data⟩ n rfl hquery htopK
          by_cases hint : k.toNat < 2 ^ 63
          · have hk := hcast (hbound.mpr hint).1
            obtain ⟨results, count, hreply, hcount, hlength, hnodup, hresults⟩ :=
              retrieve_refines h.refines hd hq hfloats h.finite hint (.inl (by omega))
            dsimp only at hop
            rw [hreply] at hop
            obtain ⟨rfl, hout⟩ := Prod.mk.inj hop
            obtain ⟨vs, hvs, hout⟩ := Except.bind_eq_ok_iff.mp hout
            obtain rfl := Except.ok.inj hout
            exact ⟨c, .retrieve htopK hcount (by omega) hnodup hresults hvs, h,
              Nat.le_add_right _ _⟩
          · -- A number that is negative as an `idx_t` is refused with an exception.
            obtain ⟨what, hreply⟩ := retrieve_negative h.refines hd hq (not_lt.mp hint)
            dsimp only at hop
            rw [hreply] at hop
            cases (Prod.mk.inj hop).2
    · obtain ⟨rfl, hout⟩ := Prod.mk.inj hop
      obtain rfl := Except.ok.inj hout
      exact h.refuse _ _ _
  | _ =>
    obtain ⟨rfl, hout⟩ := Prod.mk.inj hop
    obtain rfl := Except.ok.inj hout
    exact h.refuse _ _ _

/-- Every method answers for the collection. -/
theorem operator (h : s.StandsFor doc d c) (hd : d < 2 ^ 31) {op : StoreOp} {v : Value}
    (hproper : op.Proper d v) (hle : c.issued.length + op.ids v ≤ 2 ^ 64)
    (hop : s.operator getType op v = (s', .ok output)) : AnswersFor doc d c op v s' output := by
  cases op with
  | insert => exact h.insertOp hd hproper hle hop
  | insertMany => exact h.insertManyOp hd hproper hle hop
  | getById => exact h.getByIdOp hproper hop
  | retrieve => exact h.retrieveOp hd hproper hop
  | remove => exact h.removeOp hproper hop
  | clear =>
    obtain ⟨rfl, hout⟩ := Prod.mk.inj hop
    obtain rfl := Except.ok.inj hout
    refine ⟨_, .clear, ⟨clear_refines h.refines, fun k input hlive => ?_⟩, Nat.le_add_right _ _⟩
    cases hlive

end FaissStore.StandsFor

/-! ## The calls of the component -/

/-- The method of a name. -/
def StoreOp.ofName? (opname : String) : Option StoreOp :=
  if opname = "clear" then some .clear
  else if opname = "remove" then some .remove
  else if opname = "retrieve" then some .retrieve
  else if opname = "get_by_id" then some .getById
  else if opname = "insert_many" then some .insertMany
  else if opname = "insert" then some .insert
  else none

theorem StoreOp.ofName?_name (op : StoreOp) : StoreOp.ofName? op.name = some op := by
  cases op <;> rfl

theorem lookup_storeOps (getType : Value → String) (e : Embedding (MethodState (FaissStore F)) σ)
    (opname : String) : (storeOps getType e).lookup opname =
      (StoreOp.ofName? opname).map (storeMethod getType e) := by
  simp only [storeOps, List.foldl_cons, List.foldl_nil, UnorderedMap.lookup_insert_eq,
    AList.lookup_empty, StoreOp.ofName?, StoreOp.name]
  split_ifs <;> rfl

/-- What a call is answered with by a collection, under the name of its method. -/
def ServedFrom (compname : String) (c : Collection String AddInput) (call : String × Value)
    (outs : List Output) (c' : Collection String AddInput) : Prop :=
  match StoreOp.ofName? call.1 with
  | none =>
    outs = [.error ⟨"Method not exists: " ++ compname ++ "." ++ call.1⟩] ∧ c' = c
  | some op => ∃ out, outs = [out] ∧ Answered c op call.2 out c'

/-- A call that is proper, if it is one of a method. -/
def ProperCall (d : ℕ) (call : String × Value) : Prop :=
  ∀ op, StoreOp.ofName? call.1 = some op → op.Proper d call.2

/-- How many ids a call may issue, under the name of its method. -/
def callIds (call : String × Value) : ℕ :=
  match StoreOp.ofName? call.1 with
  | none => 0
  | some op => op.ids call.2

/-- Among the states of the VM's operators, a store that stands for a collection. -/
def StoreHolds (e : Embedding (MethodState (FaissStore F)) σ) (doc : F.Documented) (d : ℕ) (objs : σ)
    (c : Collection String AddInput) : Prop :=
  ∃ s, objs = e.put s ∧ s.objs.StandsFor doc d c

section Calls

variable {getType : Value → String} {e : Embedding (MethodState (FaissStore F)) σ} {compname : String}
  {objs objs' : σ}

/-- One proper call. -/
theorem servedFrom_of_serves {call : String × Value} {outs : List Output} (hd : d < 2 ^ 31)
    (hobjs : StoreHolds e doc d objs c) (hproper : ProperCall d call)
    (hle : c.issued.length + callIds call ≤ 2 ^ 64)
    (h : Component.Serves compname (storeOps getType e) objs call outs objs') :
    ∃ c', ServedFrom compname c call outs c' ∧ StoreHolds e doc d objs' c' ∧
      c'.issued.length ≤ c.issued.length + callIds call := by
  obtain ⟨opname, v⟩ := call
  unfold Component.Serves at h
  unfold callIds at hle ⊢
  unfold ServedFrom
  rw [lookup_storeOps] at h
  dsimp only at h hle ⊢
  cases hop : StoreOp.ofName? opname with
  | none =>
    rw [hop] at h
    obtain ⟨houts, rfl⟩ := h
    exact ⟨c, ⟨houts, rfl⟩, hobjs, Nat.le_add_right _ _⟩
  | some op =>
    rw [hop] at h hle
    dsimp only [Option.map_some] at h hle ⊢
    obtain ⟨s, rfl, hs⟩ := hobjs
    obtain ⟨s', hanswers, rfl⟩ := (OperatorCode.answers_lift e).mp h
    obtain ⟨output, hcall, -, rfl⟩ := of_answers_instantMethodOperator hanswers
    have hrun : s.objs.operator getType op v = (s'.objs, .ok output) := by
      simp only [FaissStore.method] at hcall
      split at hcall
      · cases hcall
      · rename_i heq
        obtain ⟨rfl, rfl⟩ := Prod.mk.inj (Except.ok.inj hcall)
        exact heq
    obtain ⟨c', hanswered, hs', hlen⟩ := hs.operator hd (hproper op hop) hle hrun
    exact ⟨c', ⟨_, rfl, hanswered⟩, ⟨s', rfl, hs'⟩, hlen⟩

/-- Proper calls, as long as fewer than `2^64` ids are issued. -/
theorem legal_store {l : List ((String × Value) × List Output)} (hd : d < 2 ^ 31)
    (h : Legal (Component.Serves compname (storeOps getType e)) objs l objs')
    (hobjs : StoreHolds e doc d objs c) (hproper : ∀ x ∈ l, ProperCall d x.1)
    (hle : c.issued.length + (l.map fun x => callIds x.1).sum ≤ 2 ^ 64) :
    ∃ c', Legal (ServedFrom compname) c l c' ∧ StoreHolds e doc d objs' c' := by
  induction h generalizing c with
  | nil => exact ⟨c, .nil c, hobjs⟩
  | @cons objs objs₁ objs' call outs l hserves _ ih =>
    rw [List.map_cons, List.sum_cons] at hle
    obtain ⟨c₁, hserved, hobjs₁, hlen⟩ :=
      servedFrom_of_serves hd hobjs (hproper _ (.head _)) (by omega) hserves
    obtain ⟨c', hlegal, hobjs'⟩ :=
      ih hobjs₁ (fun x hx => hproper x (.tail _ hx)) (by omega)
    exact ⟨c', .cons hserved hlegal, hobjs'⟩

/-- The component that the factory makes stands for the empty collection. -/
theorem of_vectorStoreFactory {attrs : Value} {env env' : ω} {comp : Component σ}
    (doc : F.Documented)
    (h : vectorStoreFactory getType e attrs env = .ok (.ok comp, env')) :
    ∃ m dimension, attrs = .map m ∧ m.lookup "dimension" = some (.uint dimension) ∧
      comp.ops = storeOps getType e ∧ (dimension.toNat < 2 ^ 31 →
        StoreHolds e doc dimension.toNat comp.objs .empty) := by
  unfold vectorStoreFactory createVectorStoreComponent at h
  cases attrs with
  | map m =>
    dsimp only at h
    obtain ⟨store, hstore, h⟩ := Except.bind_eq_ok_iff.mp h
    obtain ⟨v, hv, hstore⟩ := Except.bind_eq_ok_iff.mp hstore
    obtain ⟨dimension, hdim, hstore⟩ := Except.bind_eq_ok_iff.mp hstore
    obtain rfl := Except.ok.inj hstore
    obtain ⟨hcomp, -⟩ := Prod.mk.inj (Except.ok.inj h)
    obtain rfl := Except.ok.inj hcomp
    have hlookup : m.lookup "dimension" = some (.uint dimension) := by
      unfold Value.mapAt at hv
      cases hm : m.lookup "dimension" with
      | none =>
        rw [hm] at hv
        cases hv
      | some w =>
        rw [hm] at hv
        obtain rfl := Except.ok.inj hv
        cases w with
        | uint n =>
          obtain rfl := Except.ok.inj hdim
          rfl
        | _ => cases hdim
    refine ⟨m, dimension, rfl, hlookup, rfl, fun hd => ⟨_, rfl, ⟨make_refines doc hd, ?_⟩⟩⟩
    intro k input hlive
    cases hlive
  | _ => cases h

end Calls

/-! ## What the calls say about each other -/

/-- The ids that a call has handed out. -/
def idsIn (x : (String × Value) × List Output) : List String :=
  match StoreOp.ofName? x.1.1, x.2 with
  | some .insert, [.ok (.map [(_, .string k)]) _] => [k]
  | some .insertMany, [.ok (.map [(_, .array vs)]) _] =>
    vs.filterMap fun
      | .string k => some k
      | _ => none
  | _, _ => []

/-- The call removes the record of an id, or all records. -/
def RemovesId (k : String) (call : String × Value) : Prop :=
  call.1 = "clear" ∨
    call.1 = "remove" ∧ ∃ m, call.2 = .map m ∧ m.lookup "id" = some (.string k)

section Served

variable {compname : String} {c' : Collection String AddInput} {call : String × Value}
  {outs : List Output} {k : String}

/-- A method is called by its name. -/
theorem StoreOp.name_of_ofName? {opname : String} {op : StoreOp}
    (h : StoreOp.ofName? opname = some op) : opname = op.name := by
  unfold StoreOp.ofName? at h
  split_ifs at h <;> (obtain rfl := Option.some.inj h; assumption)

/-- The ids that a call hands out are those that it issues, which are new and differ. -/
theorem ServedFrom.issued (h : ServedFrom compname c call outs c') :
    c'.issued = c.issued ++ idsIn (call, outs) ∧ (c.issued.Nodup → c'.issued.Nodup) := by
  obtain ⟨opname, v⟩ := call
  unfold ServedFrom at h
  unfold idsIn
  dsimp only at h ⊢
  cases hop : StoreOp.ofName? opname with
  | none =>
    rw [hop] at h
    obtain ⟨-, rfl⟩ := h
    exact ⟨(List.append_nil _).symm, id⟩
  | some op =>
    rw [hop] at h
    obtain ⟨out, rfl, hanswered⟩ := h
    cases hanswered with
    | @insert _ _ k hinput hfresh =>
      refine ⟨rfl, fun hnd => List.nodup_append.mpr ⟨hnd, List.nodup_singleton _, ?_⟩⟩
      intro a ha b hb heq
      rw [heq, List.mem_singleton.mp hb] at ha
      exact hfresh ha
    | @insertMany vs inputs ks hinputs hlength hnodup hfresh =>
      have hkeys : (ks.zip inputs).map Prod.fst = ks := List.map_fst_zip (by omega)
      rw [Collection.issued_insert, hkeys]
      refine ⟨?_, fun hnd => List.nodup_append.mpr ⟨hnd, hnodup, ?_⟩⟩
      · simp [List.filterMap_map]
      · intro a ha b hb heq
        rw [heq] at ha
        exact hfresh b hb ha
    | refuse => cases op <;> exact ⟨(List.append_nil _).symm, id⟩
    | _ => exact ⟨(List.append_nil _).symm, id⟩

/-- What a call does to the record of an id that was issued: it leaves it alone, unless it removes
it. -/
theorem ServedFrom.live_cases (h : ServedFrom compname c call outs c') (hk : k ∈ c.issued) :
    c'.live k = c.live k ∨ RemovesId k call ∧ c'.live k = none := by
  obtain ⟨opname, v⟩ := call
  unfold ServedFrom at h
  dsimp only at h
  cases hop : StoreOp.ofName? opname with
  | none =>
    rw [hop] at h
    exact .inl (by rw [h.2])
  | some op =>
    rw [hop] at h
    obtain ⟨out, rfl, hanswered⟩ := h
    have hname := StoreOp.name_of_ofName? hop
    cases hanswered with
    | @insert _ _ k' hinput hfresh =>
      have hne : k ≠ k' := fun heq => hfresh (by rw [← heq]; exact hk)
      exact .inl (if_neg hne)
    | @insertMany vs inputs ks hinputs hlength hnodup hfresh =>
      have hkeys : (ks.zip inputs).map Prod.fst = ks := List.map_fst_zip (by omega)
      refine .inl (c.live_insert_of_not_mem ?_)
      rw [hkeys]
      exact fun hmem => hfresh k hmem hk
    | @remove m k' hid =>
      by_cases hsame : k = k'
      · subst hsame
        exact .inr ⟨.inr ⟨hname, m, rfl, hid⟩, if_pos rfl⟩
      · exact .inl (if_neg hsame)
    | clear => exact .inr ⟨.inl hname, rfl⟩
    | _ => exact .inl rfl

/-- A call that removes a record and is not refused leaves none. -/
theorem ServedFrom.live_of_removes {v : Value} (h : ServedFrom compname c call [.ok v true] c')
    (hrem : RemovesId k call) : c'.live k = none := by
  obtain ⟨opname, w⟩ := call
  rcases hrem with hclear | ⟨hremove, m, hm, hid⟩
  · obtain rfl : opname = "clear" := hclear
    obtain ⟨out, hout, hanswered⟩ := h
    obtain rfl := List.singleton_inj.mp hout
    cases hanswered with
    | clear => rfl
  · obtain rfl : opname = "remove" := hremove
    obtain rfl : w = .map m := hm
    obtain ⟨out, hout, hanswered⟩ := h
    obtain rfl := List.singleton_inj.mp hout
    cases hanswered with
    | @remove _ k' hid' =>
      obtain rfl : k = k' := Value.string.inj (Option.some.inj (hid.symm.trans hid'))
      exact if_pos rfl

/-- An insertion that hands out an id has made the record. -/
theorem ServedFrom.of_insert {v : Value}
    (h : ServedFrom compname c ("insert", v) [.ok (.map [("id", .string k)]) true] c') :
    ∃ input, v.addInput? = some input ∧ c' = c.insertOne k input := by
  obtain ⟨out, hout, hanswered⟩ := h
  obtain rfl := List.singleton_inj.mp hout
  cases hanswered with
  | insert hinput hfresh => exact ⟨_, hinput, rfl⟩

/-- What is read under an id is its record, if there is one. -/
theorem ServedFrom.of_getById {m : List (String × Value)} {w : Value}
    (h : ServedFrom compname c ("get_by_id", .map m) [.ok w true] c')
    (hid : m.lookup "id" = some (.string k)) :
    c.live k = none ∧ w = .null ∨ ∃ input, c.live k = some input ∧
      GetResult.output ⟨k, input.document, input.metadata, input.embedding⟩ = .ok w := by
  obtain ⟨out, hout, hanswered⟩ := h
  obtain rfl := List.singleton_inj.mp hout
  generalize hop : StoreOp.getById = op at hanswered
  cases hanswered with
  | absent hid' hlive =>
    obtain rfl := Value.string.inj (Option.some.inj (hid.symm.trans hid'))
    exact .inl ⟨hlive, rfl⟩
  | get hid' hlive houtput =>
    obtain rfl := Value.string.inj (Option.some.inj (hid.symm.trans hid'))
    exact .inr ⟨_, hlive, houtput⟩
  | _ => cases hop

end Served

section Runs

variable {compname : String} {c' : Collection String AddInput} {k : String}
  {l : List ((String × Value) × List Output)}

theorem issued_of_legal (h : Legal (ServedFrom compname) c l c') :
    c'.issued = c.issued ++ l.flatMap idsIn ∧ (c.issued.Nodup → c'.issued.Nodup) := by
  induction h with
  | nil => exact ⟨(List.append_nil _).symm, id⟩
  | @cons c c₁ c' call outs l hserved _ ih =>
    obtain ⟨hone, hnd⟩ := hserved.issued
    obtain ⟨hrest, hnd'⟩ := ih
    refine ⟨?_, fun h => hnd' (hnd h)⟩
    rw [hrest, hone, List.flatMap_cons, List.append_assoc]

/-- Calls that do not remove the record of an id that was issued leave it as it is. -/
theorem live_of_legal (h : Legal (ServedFrom compname) c l c') (hk : k ∈ c.issued)
    (hkeep : ∀ x ∈ l, ¬ RemovesId k x.1) : c'.live k = c.live k := by
  induction h with
  | nil => rfl
  | @cons c c₁ c' call outs l hserved _ ih =>
    have hone := (hserved.live_cases hk).resolve_right fun hrem => hkeep _ (.head _) hrem.1
    have hk' : k ∈ c₁.issued := by
      rw [hserved.issued.1]
      exact List.mem_append_left _ hk
    rw [ih hk' fun x hx => hkeep x (.tail _ hx), hone]

/-- The record of an id that was issued and is gone stays away. -/
theorem live_none_of_legal (h : Legal (ServedFrom compname) c l c') (hk : k ∈ c.issued)
    (hnone : c.live k = none) : c'.live k = none := by
  induction h with
  | nil => exact hnone
  | @cons c c₁ c' call outs l hserved _ ih =>
    have hk' : k ∈ c₁.issued := by
      rw [hserved.issued.1]
      exact List.mem_append_left _ hk
    refine ih hk' ?_
    rcases hserved.live_cases hk with hsame | ⟨-, hgone⟩
    · rw [hsame, hnone]
    · exact hgone

end Runs

end Ailoy
