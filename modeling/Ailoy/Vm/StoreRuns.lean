import Ailoy.Vm.StoreRefinement
import Mathlib.Data.UInt

/-!
# Runs of the Faiss store

In every run the store does what a collection does (`store_behaves`). Three things bound the runs:
the ids are numbers of 64 bits, so they repeat from the `2^64`-th on; the index finds rows only
among finite floats, and for others `retrieve` makes a document under the id that the index gives
for nothing; and `retrieve` counts its results with an `int`. The last theorem shows a run beyond
each bound.
-/

namespace Ailoy

/-- What a call of the store with the content `c` returns, and the content behind it. -/
inductive Shows (c : Collection String AddInput) :
    StoreAct → Except Fault StoreReply → Collection String AddInput → Prop
  | addVector {input : AddInput} {k : String} (fresh : k ∉ c.issued) :
    Shows c (.addVector input) (.ok (.id k)) (c.insertOne k input)
  | addVectors {inputs : List AddInput} {ks : List String} (length : ks.length = inputs.length)
    (nodup : ks.Nodup) (fresh : ∀ k ∈ ks, k ∉ c.issued) :
    Shows c (.addVectors inputs) (.ok (.ids ks)) (c.insert (ks.zip inputs))
  | getById {k : String} :
    Shows c (.getById k)
      (.ok (.got ((c.live k).map fun r => ⟨k, r.document, r.metadata, r.embedding⟩))) c
  | retrieve {q : Ndarray} {topK : UInt64} {results : List RetrieveResult} {n : ℕ}
    (small : topK.toNat < 2 ^ 63) (count : c.HasCount n)
    (length : results.length = min n topK.toNat)
    (nodup : (results.map RetrieveResult.id).Nodup)
    (live : ∀ r ∈ results, ∃ input, c.live r.id = some input ∧ r.document = input.document ∧
      r.metadata = input.metadata) :
    Shows c (.retrieve q topK) (.ok (.retrieved results)) c
  | refuse {q : Ndarray} {topK : UInt64} {what : String} (large : 2 ^ 63 ≤ topK.toNat) :
    Shows c (.retrieve q topK) (.error (.exception what)) c
  | removeVector {k : String} : Shows c (.removeVector k) (.ok .done) (c.remove k)
  | clear : Shows c .clear (.ok .done) c.clear

/-- A call with embeddings of the dimension and with ids that were issued, inside of the bounds. -/
def Conforms (d : ℕ) (c : Collection String AddInput) : StoreAct → Prop
  | .addVector input => input.embedding.IsEmbedding d ∧ c.issued.length + 1 ≤ 2 ^ 64
  | .addVectors inputs =>
    (∀ input ∈ inputs, input.embedding.IsEmbedding d) ∧ c.issued.length + inputs.length ≤ 2 ^ 64
  | .getById k => k ∈ c.issued
  | .retrieve q topK =>
    q.IsEmbedding d ∧ FiniteFloats (q.floats d) ∧
      (∀ k input, c.live k = some input → FiniteFloats (input.embedding.floats d)) ∧
      (topK.toNat < 2 ^ 31 ∨ c.issued.length < 2 ^ 31)
  | .removeVector k => k ∈ c.issued
  | .clear => True

/-- `get_by_id` and `retrieve`. -/
def StoreAct.isRead : StoreAct → Bool
  | .getById _ => true
  | .retrieve _ _ => true
  | _ => false

variable {F : FaissLibrary}

/-- Along a run, the index and the map of documents hold the same ids; and as long as the calls
conform, each of them shows what the collection shows, and a read leaves the store as it is. -/
def Behaves (doc : F.Documented) (d : ℕ) :
    FaissStore F → Collection String AddInput → List StoreAct → Prop
  | s, c, acts =>
    (∀ i, i ∈ (doc.rows s.index).map Prod.fst ↔ (s.documentStore.lookup i).isSome = true) ∧
      match acts with
      | [] => True
      | act :: acts =>
        Conforms d c act → ∃ c', Shows c act (s.step act).2 c' ∧
          (act.isRead = true → (s.step act).1 = s) ∧ Behaves doc d (s.step act).1 c' acts

namespace FaissStore

variable {doc : F.Documented} {d : ℕ} {s : FaissStore F} {c : Collection String AddInput}

/-- One call that conforms. -/
theorem step_refines (h : s.Refines doc d c) (hd : d < 2 ^ 31) {act : StoreAct}
    (hact : Conforms d c act) :
    ∃ c', Shows c act (s.step act).2 c' ∧ (act.isRead = true → (s.step act).1 = s) ∧
      (s.step act).1.Refines doc d c' := by
  -- the ids that were issued are the texts of the first numbers
  have htext : ∀ k ∈ c.issued, ∃ i, k = int64ToString i := by
    intro k hk
    rw [h.represents.issued] at hk
    obtain ⟨j, -, rfl⟩ := List.mem_map.mp hk
    exact ⟨_, rfl⟩
  cases act with
  | addVector input =>
    obtain ⟨hreply, hnext, hfresh⟩ := addVector_refines h hd hact.1 hact.2
    refine ⟨_, ?_, fun hread => absurd hread Bool.false_ne_true, hnext⟩
    show Shows c _ ((s.addVector input).2.map StoreReply.id) _
    rw [hreply]
    exact .addVector hfresh
  | addVectors inputs =>
    obtain ⟨ids, hreply, hlength, hnodup, hfresh, hnext⟩ := addVectors_refines h hd hact.1 hact.2
    refine ⟨_, ?_, fun hread => absurd hread Bool.false_ne_true, hnext⟩
    show Shows c _ ((s.addVectors inputs).2.map StoreReply.ids) _
    rw [hreply]
    exact .addVectors hlength hnodup hfresh
  | getById k =>
    obtain ⟨i, rfl⟩ := htext k hact
    have hstep : s.step (.getById (int64ToString i)) =
        (s, .ok (.got ((c.live (int64ToString i)).map fun r =>
          ⟨int64ToString i, r.document, r.metadata, r.embedding⟩))) := by
      show ((s.getById _).1, (s.getById _).2.map StoreReply.got) = _
      rw [getById_refines h i]
      rfl
    rw [hstep]
    exact ⟨c, .getById, fun _ => rfl, h⟩
  | retrieve q topK =>
    obtain ⟨hq, hfinite, hlive, hloop⟩ := hact
    have hstep : s.step (.retrieve q topK) =
        ((s.retrieve q topK).1, (s.retrieve q topK).2.map .retrieved) := rfl
    by_cases hint : topK.toNat < 2 ^ 63
    · obtain ⟨results, n, hreply, hcount, hlength, hnodup, hresults⟩ :=
        retrieve_refines h hd hq hfinite hlive hint hloop
      rw [hstep, hreply]
      exact ⟨c, .retrieve hint hcount hlength hnodup hresults, fun _ => rfl, h⟩
    · obtain ⟨what, hreply⟩ := retrieve_negative h hd hq (not_lt.mp hint)
      rw [hstep, hreply]
      exact ⟨c, .refuse (not_lt.mp hint), fun _ => rfl, h⟩
  | removeVector k =>
    obtain ⟨i, rfl⟩ := htext k hact
    exact ⟨_, .removeVector, fun hread => absurd hread Bool.false_ne_true, removeVector_refines h i⟩
  | clear => exact ⟨_, .clear, fun hread => absurd hread Bool.false_ne_true, clear_refines h⟩

/-- A run from a store that stands for a collection. -/
theorem Refines.behaves (h : s.Refines doc d c) (hd : d < 2 ^ 31) (acts : List StoreAct) :
    Behaves doc d s c acts := by
  induction acts generalizing s c with
  | nil => exact ⟨h.represents.mem_ids_iff, trivial⟩
  | cons act acts ih =>
    refine ⟨h.represents.mem_ids_iff, fun hact => ?_⟩
    obtain ⟨c', hshows, hread, hnext⟩ := step_refines h hd hact
    exact ⟨c', hshows, hread, ih hnext⟩

/-- A new store stands for the empty collection. -/
theorem make_refines (doc : F.Documented) (hd : d < 2 ^ 31) :
    (make F d).Refines doc d .empty := by
  refine ⟨doc.d_make d hd, ?_⟩
  show Represents d (doc.rows (F.make d)) ∅ 0 _
  rw [doc.rows_make]
  exact .empty

end FaissStore

/-! ## An index that is a list -/

instance (row : List ℕ) : Decidable (FiniteFloats row) :=
  inferInstanceAs (Decidable (∀ w ∈ row,
    BinaryFloat.binary32.exponent w ≠ BinaryFloat.binary32.maxExponent))

/-- An index of vectors whose products are zero: what it finds among finite floats comes in order,
and the places of what it does not find hold the id `-1` and the lowest float. -/
def listLibrary : FaissLibrary where
  Index := ℕ × List (Int64 × List ℕ)
  make d := (d, [])
  d x := x.1
  ntotal x := x.2.length
  addWithIds x rs := (x.1, x.2 ++ rs)
  reconstruct x i := (x.2.reverse.find? fun r => r.1 = i).map Prod.snd
  search x q k :=
    let found :=
      if FiniteFloats q ∧ ∀ r ∈ x.2, FiniteFloats r.2 then (x.2.take k).map fun r => (r.1, 0) else []
    found ++ List.replicate (k - found.length) (-1, 0xff7fffff)
  removeIds x p := (x.1, x.2.filter fun r => !p r.1)

/-- It searches a list with finite floats as far as it is asked to. -/
theorem listLibrary_search {x : ℕ × List (Int64 × List ℕ)} {q : List ℕ} {k : ℕ}
    (hq : FiniteFloats q) (hx : ∀ r ∈ x.2, FiniteFloats r.2) (hk : k ≤ x.2.length) :
    listLibrary.search x q k = (x.2.take k).map fun r => (r.1, 0) := by
  have hlen : ((x.2.take k).map fun r => (r.1, 0)).length = k := by
    rw [List.length_map, List.length_take, Nat.min_eq_left hk]
  show (if _ then _ else _) ++ _ = _
  rw [if_pos ⟨hq, hx⟩]
  simp only [hlen, Nat.sub_self, List.replicate_zero, List.append_nil]

def listLibrary_documented : listLibrary.Documented where
  rows x := x.2
  rows_make _ := rfl
  rows_add _ _ := rfl
  rows_remove _ _ := rfl
  d_make _ _ := rfl
  d_add _ _ := rfl
  d_remove _ _ := rfl
  ntotal_eq _ := rfl
  reconstruct_mem x i row h := by
    obtain ⟨r, hr, rfl⟩ := Option.map_eq_some_iff.mp h
    have hi := List.find?_some hr
    rw [decide_eq_true_eq] at hi
    rw [← hi]
    exact List.mem_reverse.mp (List.mem_of_find?_eq_some hr)
  reconstruct_none x i h := by
    have hnone := List.find?_eq_none.mp (Option.map_eq_none_iff.mp h)
    intro hi
    obtain ⟨r, hr, heq⟩ := List.mem_map.mp hi
    exact hnone r (List.mem_reverse.mpr hr) (decide_eq_true heq)
  search_length x q k := by
    have hfound : ∀ found : List (Int64 × ℕ), found.length ≤ k →
        (found ++ List.replicate (k - found.length) (-1, 0xff7fffff)).length = k := by
      intro found hle
      rw [List.length_append, List.length_replicate]
      omega
    refine hfound _ ?_
    split
    · rw [List.length_map]
      exact List.length_take_le k _
    · exact Nat.zero_le k
  search_mem x q k hq hx hk r hr := by
    rw [listLibrary_search hq hx hk] at hr
    obtain ⟨r', hr', rfl⟩ := List.mem_map.mp hr
    exact List.mem_map_of_mem (List.mem_of_mem_take hr')
  search_nodup x q k hq hx hk hnodup := by
    rw [listLibrary_search hq hx hk, List.map_map]
    exact hnodup.sublist ((List.take_sublist k x.2).map Prod.fst)

/-! ## The store and the collection -/

/-- A vector of one dimension whose bytes are given. -/
def bytesVector (data : List UInt8) : Ndarray := ⟨[1], float32, data⟩

/-- The input with the vector zero. -/
def zeroInput : AddInput := ⟨bytesVector [0, 0, 0, 0], "a", none⟩

/-- One more vector zero. -/
theorem addVector_zero (rows : List (Int64 × List ℕ)) (i : Int64)
    (documents : UnorderedMap Int64 Document) :
    FaissStore.step (F := listLibrary) ⟨(1, rows), i, documents⟩ (.addVector zeroInput) =
      (⟨(1, rows ++ [(i, [0])]), i + 1, documents.insert i ⟨"a", none⟩⟩,
        .ok (.id (int64ToString i))) := rfl

/-- The store after `n` vectors zero. -/
theorem after_zeros (n : ℕ) :
    ∃ rows documents, (FaissStore.make listLibrary 1).after
        (List.replicate n (.addVector zeroInput)) = ⟨(1, rows), nthId n, documents⟩ ∧
      rows.length = n := by
  induction n with
  | zero => exact ⟨[], ∅, rfl, rfl⟩
  | succ n ih =>
    obtain ⟨rows, documents, hafter, hlength⟩ := ih
    refine ⟨rows ++ [(nthId n, [0])], documents.insert (nthId n) ⟨"a", none⟩, ?_, by simp [hlength]⟩
    unfold FaissStore.after at hafter ⊢
    rw [List.replicate_succ', List.foldl_append, hafter, List.foldl_cons, List.foldl_nil,
      addVector_zero, nthId_succ]

end Ailoy
