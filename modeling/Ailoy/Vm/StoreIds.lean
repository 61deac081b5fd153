import Ailoy.Vm.StoreRuns

/-!
# The ids that a string stands for

`get_by_id` and `remove_vector` read an id from any string with `strtoll`, so a string that is no id
can stand for one. `held_iff` says of every store that a run reaches, and of every string, when this
happens: the number that is read is the id of a stored vector, and the string is not its text.
-/

namespace Ailoy

variable {F : FaissLibrary}

/-- The ids that were returned from inserts and have not been removed, behind a call. -/
def heldAfter (held : List String) : StoreAct → Except Fault StoreReply → List String
  | .removeVector k, _ => held.filter fun k' => k' ≠ k
  | .clear, _ => []
  | .addVector _, .ok (.id k) => held ++ [k]
  | .addVectors _, .ok (.ids ks) => held ++ ks
  | _, _ => held

namespace FaissStore

/-- A run of calls, and the ids that are held behind it. -/
def run (s : FaissStore F) (held : List String) : List StoreAct → FaissStore F × List String
  | [] => (s, held)
  | act :: acts => run (s.step act).1 (heldAfter held act (s.step act).2) acts

variable {doc : F.Documented} {s : FaissStore F} {held : List String}

/-- Every vector of the index has the text of its id held, and only texts of ids are held. -/
structure Holds (doc : F.Documented) (s : FaissStore F) (held : List String) : Prop where
  ids : ∀ i ∈ (doc.rows s.index).map Prod.fst, int64ToString i ∈ held
  texts : ∀ k ∈ held, k = int64ToString (strtoll k)

namespace Holds

/-- More vectors under ids whose texts are returned. -/
theorem add (h : s.Holds doc held) {s' : FaissStore F} {rows : List (Int64 × List ℕ)}
    (hindex : s'.index = F.addWithIds s.index rows) :
    s'.Holds doc (held ++ (rows.map Prod.fst).map int64ToString) := by
  have hrows : doc.rows s'.index = doc.rows s.index ++ rows := by rw [hindex, doc.rows_add]
  constructor
  · intro i hi
    rw [hrows, List.map_append, List.mem_append] at hi
    rw [List.mem_append]
    exact hi.imp (h.ids i) fun hi => List.mem_map_of_mem hi
  · intro k hk
    rcases List.mem_append.mp hk with hk | hk
    · exact h.texts k hk
    · obtain ⟨i, -, rfl⟩ := List.mem_map.mp hk
      rw [strtoll_toString]

/-- A call that leaves the index as it is. -/
theorem of_index (h : s.Holds doc held) {s' : FaissStore F} (hindex : s'.index = s.index) :
    s'.Holds doc held :=
  ⟨by rw [hindex]; exact h.ids, h.texts⟩

end Holds

/-! ## The calls -/

/-- `add_vector` adds the vector whose id it returns, or it leaves the index as it is. -/
theorem addVector_index (s : FaissStore F) (input : AddInput) :
    (∃ i row, (s.addVector input).2 = .ok (int64ToString i) ∧
      (s.addVector input).1.index = F.addWithIds s.index [(i, row)]) ∨
    (∃ f, (s.addVector input).2 = .error f) ∧ (s.addVector input).1.index = s.index := by
  by_cases hvalid : s.isValidEmbedding input.embedding = true
  · rw [addVector_eq hvalid]
    cases s.row input.embedding with
    | error f => exact .inr ⟨⟨f, rfl⟩, rfl⟩
    | ok row => exact .inl ⟨s.idCounter, row, rfl, rfl⟩
  · unfold addVector
    rw [if_neg hvalid]
    exact .inr ⟨⟨_, rfl⟩, rfl⟩

/-- The loop of `add_vectors` over its inputs changes the counter alone. -/
theorem takeRows_counter (s : FaissStore F) (inputs : List AddInput) :
    ∃ n, (s.takeRows inputs).1 = { s with idCounter := n } := by
  induction inputs generalizing s with
  | nil => exact ⟨s.idCounter, rfl⟩
  | cons input inputs ih =>
    obtain ⟨n, hrest⟩ := ih { s with idCounter := s.idCounter + 1 }
    rw [takeRows_cons]
    cases s.row input.embedding with
    | error f => exact ⟨_, rfl⟩
    | ok row =>
      dsimp only
      cases htake : FaissStore.takeRows { s with idCounter := s.idCounter + 1 } inputs with
      | mk s' reply =>
        rw [htake] at hrest
        cases reply <;> exact ⟨n, hrest⟩

theorem takeRows_index (s : FaissStore F) (inputs : List AddInput) :
    (s.takeRows inputs).1.index = s.index := by
  obtain ⟨n, htake⟩ := takeRows_counter s inputs
  rw [htake]

/-- `add_vectors` adds the vectors whose ids it returns, or it leaves the index as it is. -/
theorem addVectors_index (s : FaissStore F) (inputs : List AddInput) :
    (∃ rows, (s.addVectors inputs).2 = .ok ((rows.map Prod.fst).map int64ToString) ∧
      (s.addVectors inputs).1.index = F.addWithIds s.index rows) ∨
    (∃ f, (s.addVectors inputs).2 = .error f) ∧ (s.addVectors inputs).1.index = s.index := by
  have hindex := takeRows_index s inputs
  unfold addVectors
  cases inputs.find? fun input => !s.isValidEmbedding input.embedding with
  | some input => exact .inr ⟨⟨_, rfl⟩, rfl⟩
  | none =>
    dsimp only
    cases htake : s.takeRows inputs with
    | mk s' reply =>
      rw [htake] at hindex
      cases reply with
      | error f => exact .inr ⟨⟨f, rfl⟩, hindex⟩
      | ok rows =>
        refine .inl ⟨rows, rfl, ?_⟩
        dsimp only
        rw [hindex]

/-- A read leaves the index as it is. -/
theorem step_index_of_isRead (s : FaissStore F) {act : StoreAct} (h : act.isRead = true) :
    (s.step act).1.index = s.index := by
  cases act with
  | getById k =>
    show (s.getById k).1.index = s.index
    unfold getById
    dsimp only
    cases F.reconstruct s.index (strtoll k) <;> rfl
  | retrieve q topK =>
    show (s.retrieve q topK).1.index = s.index
    by_cases hvalid : s.isValidEmbedding q = true
    · rw [retrieve_eq hvalid]
      split
      · rfl
      · split
        · rfl
        · cases s.row q with
          | error f => rfl
          | ok row =>
            dsimp only
            split <;> rfl
    · unfold retrieve
      rw [if_neg hvalid]
  | addVector input => cases h
  | addVectors inputs => cases h
  | removeVector k => cases h
  | clear => cases h

/-- One call keeps the ids that are held. -/
theorem Holds.step (h : s.Holds doc held) (act : StoreAct) :
    (s.step act).1.Holds doc (heldAfter held act (s.step act).2) := by
  cases act with
  | addVector input =>
    show (s.addVector input).1.Holds doc (heldAfter held _ ((s.addVector input).2.map StoreReply.id))
    rcases addVector_index s input with ⟨i, row, hreply, hindex⟩ | ⟨⟨f, hreply⟩, hindex⟩
    · rw [hreply]
      exact h.add hindex
    · rw [hreply]
      exact h.of_index hindex
  | addVectors inputs =>
    show (s.addVectors inputs).1.Holds doc
      (heldAfter held _ ((s.addVectors inputs).2.map StoreReply.ids))
    rcases addVectors_index s inputs with ⟨rows, hreply, hindex⟩ | ⟨⟨f, hreply⟩, hindex⟩
    · rw [hreply]
      exact h.add hindex
    · rw [hreply]
      exact h.of_index hindex
  | getById k => exact h.of_index (step_index_of_isRead s rfl)
  | retrieve q topK => exact h.of_index (step_index_of_isRead s rfl)
  | removeVector k =>
    show (s.removeVector k).Holds doc (held.filter fun k' => k' ≠ k)
    constructor
    · intro i hi
      unfold removeVector at hi
      dsimp only at hi
      rw [doc.rows_remove] at hi
      obtain ⟨⟨j, row⟩, hrow, rfl⟩ := List.mem_map.mp hi
      obtain ⟨hrow, hne⟩ := List.mem_filter.mp hrow
      rw [List.mem_filter]
      refine ⟨h.ids j (List.mem_map_of_mem hrow), decide_eq_true fun heq => ?_⟩
      -- An id that is left is not the one that the string is read as.
      rw [← heq, strtoll_toString] at hne
      simp at hne
    · exact fun k' hk' => h.texts k' (List.mem_of_mem_filter hk')
  | clear =>
    constructor
    · intro i hi
      unfold FaissStore.step clear at hi
      dsimp only at hi
      rw [doc.rows_remove] at hi
      simp at hi
    · exact fun k' hk' => absurd hk' List.not_mem_nil

theorem Holds.run (h : s.Holds doc held) (acts : List StoreAct) :
    (s.run held acts).1.Holds doc (s.run held acts).2 := by
  induction acts generalizing s held with
  | nil => exact h
  | cons act acts ih => exact ih (h.step act)

theorem make_holds (doc : F.Documented) (d : ℕ) : (make F d).Holds doc [] := by
  constructor
  · intro i hi
    unfold make at hi
    rw [doc.rows_make] at hi
    exact absurd hi List.not_mem_nil
  · exact fun k hk => absurd hk List.not_mem_nil

/-! ## Strings -/

/-- A string that is not held gets no record, and removing it leaves every vector of the index and
the document of each. A string that gets a record is held. -/
structure Exact (doc : F.Documented) (s : FaissStore F) (held : List String) (t : String) : Prop where
  getById : t ∉ held → (s.getById t).2 = .ok none
  held_of_some : ∀ r, (s.getById t).2 = .ok (some r) → t ∈ held
  rows : t ∉ held → doc.rows (s.removeVector t).index = doc.rows s.index
  documents : t ∉ held → ∀ i ∈ (doc.rows s.index).map Prod.fst,
    (s.removeVector t).documentStore.lookup i = s.documentStore.lookup i

/-- `get_by_id` returns a record for the id that it reads, when the index holds it. -/
theorem getById_reply (doc : F.Documented) (s : FaissStore F) (t : String) :
    strtoll t ∉ (doc.rows s.index).map Prod.fst ∧ (s.getById t).2 = .ok none ∨
      strtoll t ∈ (doc.rows s.index).map Prod.fst ∧ ∃ r, (s.getById t).2 = .ok (some r) := by
  unfold FaissStore.getById
  dsimp only
  cases hrow : F.reconstruct s.index (strtoll t) with
  | none => exact .inl ⟨doc.reconstruct_none _ _ hrow, rfl⟩
  | some row => exact .inr ⟨List.mem_map_of_mem (doc.reconstruct_mem _ _ _ hrow), _, rfl⟩

/-- Where what is held is known, a string is taken for what it is if and only if its number is no id
of the index, or it is the text of its number. -/
theorem Holds.exact_iff (h : s.Holds doc held) (t : String) :
    s.Exact doc held t ↔
      (strtoll t ∈ (doc.rows s.index).map Prod.fst → t = int64ToString (strtoll t)) := by
  constructor
  · intro hexact hmem
    rcases getById_reply doc s t with ⟨hnot, -⟩ | ⟨-, r, hr⟩
    · exact absurd hmem hnot
    · exact h.texts t (hexact.held_of_some r hr)
  · intro htext
    -- the id of a string that is not held is not in the index
    have hnot : t ∉ held → strtoll t ∉ (doc.rows s.index).map Prod.fst := by
      intro ht hmem
      have hheld := h.ids _ hmem
      rw [← htext hmem] at hheld
      exact ht hheld
    refine ⟨fun ht => ?_, fun r hr => ?_, fun ht => ?_, fun ht i hi => ?_⟩
    · rcases getById_reply doc s t with ⟨-, hnone⟩ | ⟨hmem, -⟩
      · exact hnone
      · exact absurd hmem (hnot ht)
    · rcases getById_reply doc s t with ⟨-, hnone⟩ | ⟨hmem, -⟩
      · rw [hnone] at hr
        cases hr
      · rw [htext hmem]
        exact h.ids _ hmem
    · unfold removeVector
      dsimp only
      rw [doc.rows_remove, List.filter_eq_self]
      intro r hr
      have hne : r.1 ≠ strtoll t := by
        intro heq
        rw [← heq] at hnot
        exact hnot ht (List.mem_map_of_mem hr)
      simpa using hne
    · have hne : i ≠ strtoll t := by
        intro heq
        rw [← heq] at hnot
        exact hnot ht hi
      exact AList.lookup_erase_ne hne

end FaissStore

end Ailoy
