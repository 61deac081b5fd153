import Ailoy.Vm.EmbeddingFidelity

/-!
# A batch and its inputs in turn

`add_vectors` is written apart from `add_vector`: it collects the rows of all inputs, adds them at
once, and inserts the documents behind that. `addEach` calls `add_vector` for each input in turn.
Both read an embedding with the same function and draw the same ids, so they leave the same store
(`addEach_takeRows`, by induction on the inputs). The shapes are all checked before anything is
changed.
-/

namespace Ailoy

variable {F : FaissLibrary}

/-- What Faiss documents of `add_with_ids`: the rows of a batch are added one by one. -/
structure FaissLibrary.AddsRowByRow (F : FaissLibrary) : Prop where
  nil (x : F.Index) : F.addWithIds x [] = x
  cons (x : F.Index) (r : Int64 × List ℕ) (rs : List (Int64 × List ℕ)) :
    F.addWithIds x (r :: rs) = F.addWithIds (F.addWithIds x [r]) rs

namespace FaissStore

variable {s t : FaissStore F} {inputs : List AddInput}

/-- `add_vector` for each input in turn, up to the first that throws. -/
def addEach (s : FaissStore F) : List AddInput → FaissStore F × Except Fault (List String)
  | [] => (s, .ok [])
  | input :: inputs =>
    match s.addVector input with
    | (s, .error f) => (s, .error f)
    | (s, .ok id) =>
      match addEach s inputs with
      | (s, .error f) => (s, .error f)
      | (s, .ok ids) => (s, .ok (id :: ids))

/-- What is read of an embedding depends on the dimension alone. -/
theorem row_congr (h : F.d t.index = F.d s.index) (a : Ndarray) : t.row a = s.row a := by
  unfold row
  rw [h]

theorem isValidEmbedding_congr (h : F.d t.index = F.d s.index) (a : Ndarray) :
    t.isValidEmbedding a = s.isValidEmbedding a := by
  unfold isValidEmbedding
  rw [h]

/-- The loop of `add_vectors` over inputs that are accepted, and `add_vector` for each of them from a
store with the same dimension and the same counter: both stop at the same embedding, or the second
leaves what the first goes on to make. -/
theorem addEach_takeRows (doc : F.Documented) (hrows : F.AddsRowByRow)
    (hd : F.d t.index = F.d s.index) (hcounter : t.idCounter = s.idCounter)
    (hvalid : ∀ input ∈ inputs, s.isValidEmbedding input.embedding = true) :
    (∃ f s' t', s.takeRows inputs = (s', .error f) ∧ t.addEach inputs = (t', .error f)) ∨
    ∃ n rows, s.takeRows inputs = ({ s with idCounter := n }, .ok rows) ∧
      t.addEach inputs =
        (⟨F.addWithIds t.index rows, n,
          putDocuments t.documentStore (rows.map Prod.fst) inputs⟩,
          .ok ((rows.map Prod.fst).map int64ToString)) := by
  induction inputs generalizing s t with
  | nil =>
    refine .inr ⟨s.idCounter, [], rfl, ?_⟩
    rw [hrows.nil, ← hcounter]
    rfl
  | cons input inputs ih =>
    obtain ⟨hhead, htail⟩ := List.forall_mem_cons.mp hvalid
    have hadd := addVector_eq (s := t) ((isValidEmbedding_congr hd input.embedding).trans hhead)
    rw [row_congr hd] at hadd
    rw [takeRows_cons, addEach]
    cases hread : s.row input.embedding with
    | error f =>
      rw [hadd, hread]
      exact .inl ⟨f, _, _, rfl, rfl⟩
    | ok row =>
      rw [hadd, hread]
      dsimp only
      -- The dimension and the counter are the same again.
      have hnext : F.d (F.addWithIds t.index [(t.idCounter, row)]) = F.d s.index := by
        rw [doc.d_add, hd]
      have hcounter' : t.idCounter + 1 = s.idCounter + 1 := by rw [hcounter]
      rcases ih (s := { s with idCounter := s.idCounter + 1 })
          (t := ⟨F.addWithIds t.index [(t.idCounter, row)], t.idCounter + 1,
            t.documentStore.insert t.idCounter ⟨input.document, input.metadata⟩⟩)
          hnext hcounter' htail with ⟨f, s', t', htake, heach⟩ | ⟨n, rows, htake, heach⟩
      · rw [htake, heach]
        exact .inl ⟨f, _, _, rfl, rfl⟩
      · rw [htake, heach, ← hcounter]
        refine .inr ⟨n, (t.idCounter, row) :: rows, rfl, ?_⟩
        rw [hrows.cons t.index (t.idCounter, row) rows]
        rfl

/-- Embeddings that are all there are all read. -/
theorem takeRows_ok (hd : F.d s.index < 2 ^ 31)
    (hin : ∀ input ∈ inputs, input.embedding.IsEmbedding (F.d s.index)) :
    ∃ s' rows, s.takeRows inputs = (s', .ok rows) ∧ rows.length = inputs.length := by
  rcases takeRows_rows s inputs with ⟨s', rows, htake, hrows⟩ | ⟨s', f, -, input, hmem, hfail⟩
  · refine ⟨s', rows, htake, ?_⟩
    have hlength := congrArg List.length hrows
    rw [List.length_map, List.length_map] at hlength
    exact hlength.symm
  · rw [(row_of_isEmbedding rfl hd (hin input hmem)).2] at hfail
    cases hfail

end FaissStore

/-- `add_vectors` does what `add_vector` does for each input in turn, when the shapes are that of the
store: it returns the same, and if it returns ids, which it does for embeddings with all of their
data, it leaves the same store. With another shape among them it throws and changes nothing. -/
theorem batch_insert_eq (doc : F.Documented) (hrows : F.AddsRowByRow) (s : FaissStore F)
    (hd : F.d s.index < 2 ^ 31) (inputs : List AddInput) :
    ((∀ input ∈ inputs, input.embedding.shape = [UInt64.ofNat (F.d s.index)]) →
      (s.addVectors inputs).2 = (s.addEach inputs).2 ∧
      ∀ ids, (s.addVectors inputs).2 = .ok ids → s.addVectors inputs = s.addEach inputs) ∧
    ((∀ input ∈ inputs, input.embedding.IsEmbedding (F.d s.index)) →
      ∃ ids, (s.addVectors inputs).2 = .ok ids ∧ ids.length = inputs.length) ∧
    ((∃ input ∈ inputs, input.embedding.shape ≠ [UInt64.ofNat (F.d s.index)]) →
      ∃ what, s.addVectors inputs = (s, .error (.exception what))) := by
  have hvalid := fun a => FaissStore.isValidEmbedding_iff (s := s) rfl hd (a := a)
  refine ⟨fun hshape => ?_, fun hin => ?_, ?_⟩
  · have haccepted := fun input hi => (hvalid _).mpr (hshape input hi)
    rw [FaissStore.addVectors_eq haccepted]
    rcases FaissStore.addEach_takeRows doc hrows rfl rfl haccepted with
      ⟨f, s', t', htake, heach⟩ | ⟨n, rows, htake, heach⟩
    · rw [htake, heach]
      refine ⟨rfl, fun ids hids => ?_⟩
      cases hids
    · rw [htake, heach]
      exact ⟨rfl, fun _ _ => rfl⟩
  · obtain ⟨s', rows, htake, hlength⟩ := FaissStore.takeRows_ok hd hin
    rw [FaissStore.addVectors_eq fun input hi => (hvalid _).mpr (hin input hi).shape, htake]
    exact ⟨_, rfl, by simp [hlength]⟩
  · rintro ⟨input, hin, hshape⟩
    exact s.addVectors_refuses hin fun h => hshape ((hvalid _).mp h)

theorem listLibrary_addsRowByRow : listLibrary.AddsRowByRow where
  nil x := congrArg (Prod.mk x.1) (List.append_nil x.2)
  cons x r rs := congrArg (Prod.mk x.1) (List.append_assoc x.2 [r] rs).symm

/-- Two vectors zero in a store of one dimension. -/
theorem batch_insert_eq_zeros :
    ((FaissStore.make listLibrary 1).addVectors [zeroInput, zeroInput]).2 = .ok ["0", "1"] ∧
      (FaissStore.make listLibrary 1).addVectors [zeroInput, zeroInput] =
        (FaissStore.make listLibrary 1).addEach [zeroInput, zeroInput] :=
  ⟨rfl, ((batch_insert_eq listLibrary_documented listLibrary_addsRowByRow
    (FaissStore.make listLibrary 1) (by decide) [zeroInput, zeroInput]).1
      (fun input hin => by
        have hzero : input = zeroInput := by simpa using hin
        rw [hzero]
        rfl)).2 _ rfl⟩

end Ailoy
