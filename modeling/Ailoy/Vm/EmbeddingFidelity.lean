import Ailoy.Vm.StoreIds

/-!
# The numbers of an embedding

The store accepts an embedding for its shape alone, and reads its bytes as `float32`s whatever they
are. `toFloat32` is what the elements of an array would be as `float32`s, and `Ndarray.Reads` says
when the store reads just these: for a `float32` array with all of its data, and for another one
only when its bytes happen to be the bytes of its converted elements. `embeddings_kept_iff` says of
each call that takes embeddings when it keeps their numbers or refuses them.
-/

namespace Ailoy

open BinaryFloat

/-- Half precision. -/
def binary16 : Format := ⟨5, 10⟩

/-- Single precision without the lower half of its bits. -/
def bfloat16 : Format := ⟨8, 7⟩

/-- The `float32` nearest to an element whose bytes stand for `n`. A type that is no number has
none. -/
def toFloat32 (dtype : DLDataType) (n : ℕ) : Option ℕ :=
  if dtype = float32 then some n
  else if dtype.lanes ≠ 1 then none
  else
    let w := dtype.bits.toNat
    match dtype.code.toNat with
    | 0 =>
      if w ∈ [8, 16, 32, 64] then
        some (if n < 2 ^ (w - 1) then binary32.round false n 0 else binary32.round true (2 ^ w - n) 0)
      else none
    | 1 => if w ∈ [8, 16, 32, 64] then some (binary32.round false n 0) else none
    | 2 =>
      if w = 64 then some (convert binary64 binary32 n)
      else if w = 16 then some (convert binary16 binary32 n)
      else none
    | 4 => if w = 16 then some (convert bfloat16 binary32 n) else none
    | _ => none

namespace Ndarray

variable {d : ℕ} {a : Ndarray}

/-- The first `d` elements as `float32`s, when the data has them. -/
def elements (d : ℕ) (a : Ndarray) : Option (List ℕ) :=
  if d * a.itemsize ≤ a.data.length then
    (List.range d).mapM fun i => toFloat32 a.dtype (wordAt a.itemsize a.data i)
  else none

/-- Read as `float32`s, the data gives the elements. -/
def Reads (d : ℕ) (a : Ndarray) : Prop :=
  d = 0 ∨ (a.dtype = float32 ∧ 4 * d ≤ a.data.length) ∨
    (a.dtype ≠ float32 ∧ 4 ≤ a.itemsize ∧ a.elements d = some (a.floats d))

theorem itemsize_float32 (h : a.dtype = float32) : a.itemsize = 4 := by
  unfold itemsize
  rw [h]
  rfl

/-- The elements of a `float32` array are its floats. -/
theorem elements_float32 (h : a.dtype = float32) :
    a.elements d = if 4 * d ≤ a.data.length then some (a.floats d) else none := by
  have hmap : (List.range d).mapM (fun i => toFloat32 float32 (wordAt 4 a.data i)) =
      some (a.floats d) := List.mapM_pure
  unfold elements
  rw [itemsize_float32 h, h, hmap, Nat.mul_comm]

/-- What the elements are and what is read. -/
theorem reads_iff :
    a.Reads d ↔ (d = 0 ∨ 4 ≤ a.itemsize) ∧ a.elements d = some (a.floats d) := by
  unfold Reads
  constructor
  · rintro (rfl | ⟨hfloat, hlen⟩ | ⟨-, hitem, helements⟩)
    · refine ⟨.inl rfl, ?_⟩
      unfold elements
      rw [if_pos (by omega)]
      rfl
    · rw [elements_float32 hfloat, if_pos hlen, itemsize_float32 hfloat]
      exact ⟨.inr le_rfl, rfl⟩
    · exact ⟨.inr hitem, helements⟩
  · rintro ⟨rfl | hitem, helements⟩
    · exact .inl rfl
    · by_cases hfloat : a.dtype = float32
      · rw [elements_float32 hfloat] at helements
        by_cases hlen : 4 * d ≤ a.data.length
        · exact .inr (.inl ⟨hfloat, hlen⟩)
        · rw [if_neg hlen] at helements
          cases helements
      · exact .inr (.inr ⟨hfloat, hitem, helements⟩)

theorem length_of_elements {values : List ℕ} (h : a.elements d = some values) :
    d * a.itemsize ≤ a.data.length := by
  by_contra hlen
  unfold elements at h
  rw [if_neg hlen] at h
  cases h

end Ndarray

variable {F : FaissLibrary}

namespace FaissStore

variable {d : ℕ} {s : FaissStore F}

/-! ## What the calls read -/

/-- The shape decides what is accepted. -/
theorem isValidEmbedding_iff (hdim : F.d s.index = d) (hd : d < 2 ^ 31) {a : Ndarray} :
    s.isValidEmbedding a = true ↔ a.shape = [UInt64.ofNat d] := by
  have hwidth : UInt64.size = 2 ^ 64 := rfl
  unfold isValidEmbedding
  rw [hdim]
  constructor
  · intro h
    match hshape : a.shape with
    | [] => rw [hshape] at h; cases h
    | [dim] =>
      rw [hshape] at h
      rw [← of_decide_eq_true h, UInt64.ofNat_toNat]
    | _ :: _ :: _ => rw [hshape] at h; cases h
  · intro h
    rw [h]
    exact decide_eq_true (UInt64.toNat_ofNat_of_lt' (by omega))

/-- An accepted array is read when the floats that its type has room for are there, and are as many
as the index has dimensions. -/
theorem row_eq (hdim : F.d s.index = d) (hd : d < 2 ^ 31) {a : Ndarray}
    (hshape : a.shape = [UInt64.ofNat d]) :
    s.row a = if 4 * (d * a.itemsize / 4) ≤ a.data.length ∧ d ≤ d * a.itemsize / 4 then
      .ok (a.floats d) else .error .outOfBounds := by
  unfold row Ndarray.asVector
  rw [Ndarray.size_vector hd hshape]
  by_cases hlen : 4 * (d * a.itemsize / 4) ≤ a.data.length
  · rw [readWords_of_le hlen, Except.ok_bind, hdim, List.length_map, List.length_range]
    by_cases hroom : d ≤ d * a.itemsize / 4
    · rw [if_pos hroom, if_pos ⟨hlen, hroom⟩, ← List.map_take, List.take_range,
        Nat.min_eq_left hroom]
      rfl
    · rw [if_neg hroom, if_neg fun h => hroom h.2]
  · rw [readWords_of_lt (by omega), if_neg fun h => hlen h.1]
    rfl

/-- The elements are read of an accepted array in just the cases of `Reads`. -/
theorem row_elements_iff (hdim : F.d s.index = d) (hd : d < 2 ^ 31) {a : Ndarray}
    (hshape : a.shape = [UInt64.ofNat d]) :
    (∃ values, s.row a = .ok values ∧ a.elements d = some values) ↔ a.Reads d := by
  rw [row_eq hdim hd hshape, Ndarray.reads_iff]
  constructor
  · rintro ⟨values, hrow, helements⟩
    by_cases hread : 4 * (d * a.itemsize / 4) ≤ a.data.length ∧ d ≤ d * a.itemsize / 4
    · rw [if_pos hread] at hrow
      cases hrow
      refine ⟨?_, helements⟩
      -- Items of three bytes or less have no room for `d` floats.
      by_contra hnot
      have hmul : d * a.itemsize ≤ d * 3 := Nat.mul_le_mul_left d (by omega)
      omega
    · rw [if_neg hread] at hrow
      cases hrow
  · rintro ⟨hitem, helements⟩
    have hlen := Ndarray.length_of_elements helements
    have hroom : d ≤ d * a.itemsize / 4 := by
      rcases hitem with rfl | hitem
      · exact Nat.zero_le _
      · have hmul : d * 4 ≤ d * a.itemsize := Nat.mul_le_mul_left d hitem
        omega
    exact ⟨a.floats d, if_pos ⟨by omega, hroom⟩, helements⟩

/-- What is not read leaves the data. -/
theorem row_error (hdim : F.d s.index = d) (hd : d < 2 ^ 31) {a : Ndarray}
    (hshape : a.shape = [UInt64.ofNat d]) {f : Fault} (h : s.row a = .error f) : f = .outOfBounds := by
  rw [row_eq hdim hd hshape] at h
  split at h
  · cases h
  · cases h
    rfl

/-- The loop over a batch reads each of its embeddings, or stops at one that cannot be read. -/
theorem takeRows_rows (s : FaissStore F) (inputs : List AddInput) :
    (∃ s' rows, s.takeRows inputs = (s', .ok rows) ∧
      inputs.map (fun input => s.row input.embedding) = rows.map fun r => .ok r.2) ∨
    ∃ s' f, s.takeRows inputs = (s', .error f) ∧
      ∃ input ∈ inputs, s.row input.embedding = .error f := by
  induction inputs generalizing s with
  | nil => exact .inl ⟨s, [], rfl, rfl⟩
  | cons input inputs ih =>
    rw [takeRows_cons]
    cases hread : s.row input.embedding with
    | error f => exact .inr ⟨_, f, rfl, input, List.mem_cons_self, hread⟩
    | ok row =>
      dsimp only
      rcases ih { s with idCounter := s.idCounter + 1 } with
        ⟨s', rows, htake, hrows⟩ | ⟨s', f, htake, x, hx, hfail⟩
      · rw [htake]
        refine .inl ⟨s', _, rfl, ?_⟩
        rw [List.map_cons, List.map_cons, hread]
        exact congrArg (List.cons _) hrows
      · rw [htake]
        exact .inr ⟨s', f, rfl, x, List.mem_cons_of_mem _ hx, hfail⟩

/-- `get_by_id` gives back the numbers of a row whose id no other row has. -/
theorem getById_embedding (doc : F.Documented) {r : Int64 × List ℕ}
    (hnodup : ((doc.rows s.index).map Prod.fst).Nodup) (hr : r ∈ doc.rows s.index) :
    ∃ result, (s.getById (int64ToString r.1)).2 = .ok (some result) ∧
      result.embedding = ⟨[UInt64.ofNat (F.d s.index)], float32, r.2.flatMap (leBytes 4)⟩ := by
  unfold FaissStore.getById
  rw [strtoll_toString]
  dsimp only
  cases hrow : F.reconstruct s.index r.1 with
  | none => exact absurd (List.mem_map_of_mem hr) (doc.reconstruct_none _ _ hrow)
  | some row =>
    have hsame : (r.1, row) = r :=
      List.inj_on_of_nodup_map hnodup (doc.reconstruct_mem _ _ _ hrow) hr rfl
    have hvalues : row = r.2 := congrArg Prod.snd hsame
    rw [hvalues]
    exact ⟨_, rfl, rfl⟩

/-- A call that inserts embeddings throws and changes nothing, or it stores the elements of each of
them under the ids that it returns; and where no id is there twice, `get_by_id` gives them back. -/
def Keeps (doc : F.Documented) (s : FaissStore F) (inputs : List AddInput)
    (s' : FaissStore F) (reply : Except Fault (List String)) : Prop :=
  (s' = s ∧ ∃ what, reply = .error (.exception what)) ∨
  ∃ rows : List (Int64 × List ℕ), reply = .ok ((rows.map Prod.fst).map int64ToString) ∧
    inputs.map (fun input => input.embedding.elements (F.d s.index)) = rows.map (fun r => some r.2) ∧
    doc.rows s'.index = doc.rows s.index ++ rows ∧
    (((doc.rows s'.index).map Prod.fst).Nodup → ∀ r ∈ rows, ∃ result,
      (s'.getById (int64ToString r.1)).2 = .ok (some result) ∧
        result.embedding = ⟨[UInt64.ofNat (F.d s.index)], float32, r.2.flatMap (leBytes 4)⟩)

/-- Two readings of a list agree when they do on each of its members. -/
theorem map_agree_iff {α β γ : Type*} {f : α → Except Fault β} {g : α → Option β} {xs : List α}
    {rs : List (γ × β)} (h : xs.map f = rs.map fun r => .ok r.2) :
    xs.map g = rs.map (fun r => some r.2) ↔ ∀ x ∈ xs, ∃ b, f x = .ok b ∧ g x = some b := by
  induction xs generalizing rs with
  | nil =>
    rw [List.map_nil, eq_comm, List.map_eq_nil_iff] at h
    rw [h]
    simp
  | cons x xs ih =>
    match rs with
    | [] => cases h
    | r :: rs =>
      rw [List.map_cons, List.map_cons, List.cons.injEq] at h
      obtain ⟨hx, hxs⟩ := h
      rw [List.map_cons, List.map_cons, List.cons.injEq, ih hxs, List.forall_mem_cons, hx]
      refine and_congr_left fun _ => ⟨fun hg => ⟨r.2, rfl, hg⟩, ?_⟩
      rintro ⟨b, hb, hg⟩
      cases hb
      exact hg

/-- A call that adds the rows that it read keeps the embeddings when their elements are these rows.
-/
theorem keeps_ok_iff (doc : F.Documented) (hdim : F.d s.index = d) (hd : d < 2 ^ 31)
    {inputs : List AddInput} (hshape : ∀ input ∈ inputs, input.embedding.shape = [UInt64.ofNat d])
    {s' : FaissStore F} {rows : List (Int64 × List ℕ)}
    (hindex : s'.index = F.addWithIds s.index rows)
    (hrows : inputs.map (fun input => s.row input.embedding) = rows.map fun r => .ok r.2) :
    s.Keeps doc inputs s' (.ok ((rows.map Prod.fst).map int64ToString)) ↔
      ∀ input ∈ inputs, input.embedding.Reads d := by
  have hadd : doc.rows s'.index = doc.rows s.index ++ rows := by rw [hindex, doc.rows_add]
  have hdim' : F.d s'.index = F.d s.index := by rw [hindex, doc.d_add]
  have hagree : inputs.map (fun input => input.embedding.elements (F.d s.index)) =
      rows.map (fun r => some r.2) ↔ ∀ input ∈ inputs, input.embedding.Reads d := by
    rw [map_agree_iff hrows, hdim]
    exact forall₂_congr fun input hin => row_elements_iff hdim hd (hshape input hin)
  rw [← hagree]
  constructor
  · rintro (⟨-, what, hreply⟩ | ⟨rows', -, helements, hadd', -⟩)
    · cases hreply
    · rw [hadd] at hadd'
      rw [List.append_cancel_left hadd']
      exact helements
  · intro helements
    refine .inr ⟨rows, rfl, helements, hadd, fun hnodup r hr => ?_⟩
    -- The rows that were added are in the index now.
    obtain ⟨result, hget, hresult⟩ := getById_embedding doc hnodup
      (by rw [hadd]; exact List.mem_append_right _ hr)
    rw [hdim'] at hresult
    exact ⟨result, hget, hresult⟩

/-- A call that leaves the data of an embedding does not keep it. -/
theorem not_keeps_outOfBounds (doc : F.Documented) {inputs : List AddInput} {s' : FaissStore F} :
    ¬ s.Keeps doc inputs s' (.error .outOfBounds) := by
  rintro (⟨-, what, hreply⟩ | ⟨rows, hreply, -⟩)
  · cases hreply
  · cases hreply

/-- When `add_vector` keeps the embedding. -/
theorem addVector_keeps_iff (doc : F.Documented) (hdim : F.d s.index = d) (hd : d < 2 ^ 31)
    (input : AddInput) :
    s.Keeps doc [input] (s.addVector input).1 ((s.addVector input).2.map fun id => [id]) ↔
      input.embedding.shape ≠ [UInt64.ofNat d] ∨ input.embedding.Reads d := by
  have hvalid := isValidEmbedding_iff hdim hd (a := input.embedding)
  by_cases hshape : input.embedding.shape = [UInt64.ofNat d]
  · -- The shape is accepted, so all depends on what is read.
    rw [or_iff_right (not_not.mpr hshape)]
    rw [addVector_eq (hvalid.mpr hshape)]
    cases hread : s.row input.embedding with
    | error f =>
      cases row_error hdim hd hshape hread
      refine iff_of_false (not_keeps_outOfBounds doc) fun hreads => ?_
      obtain ⟨values, hvalues, -⟩ := (row_elements_iff hdim hd hshape).mpr hreads
      rw [hread] at hvalues
      cases hvalues
    | ok row =>
      have hkeeps : s.Keeps doc [input] ⟨F.addWithIds s.index [(s.idCounter, row)], s.idCounter + 1,
            s.documentStore.insert s.idCounter ⟨input.document, input.metadata⟩⟩
          (.ok (([(s.idCounter, row)].map Prod.fst).map int64ToString)) ↔
            ∀ x ∈ [input], x.embedding.Reads d :=
        keeps_ok_iff doc hdim hd (by simpa using hshape) rfl (by simp [hread])
      rw [List.forall_mem_singleton] at hkeeps
      exact hkeeps
  · unfold addVector
    rw [if_neg fun h => hshape (hvalid.mp h)]
    exact iff_of_true (.inl ⟨rfl, _, rfl⟩) (.inl hshape)

/-- When `add_vectors` keeps the embeddings. -/
theorem addVectors_keeps_iff (doc : F.Documented) (hdim : F.d s.index = d) (hd : d < 2 ^ 31)
    (inputs : List AddInput) :
    s.Keeps doc inputs (s.addVectors inputs).1 (s.addVectors inputs).2 ↔
      (∃ input ∈ inputs, input.embedding.shape ≠ [UInt64.ofNat d]) ∨
        ∀ input ∈ inputs, input.embedding.Reads d := by
  by_cases hshape : ∀ input ∈ inputs, input.embedding.shape = [UInt64.ofNat d]
  · rw [or_iff_right (by simpa using hshape)]
    have hindex := takeRows_index s inputs
    rw [addVectors_eq fun input hin => (isValidEmbedding_iff hdim hd).mpr (hshape input hin)]
    rcases takeRows_rows s inputs with ⟨s', rows, htake, hrows⟩ | ⟨s', f, htake, x, hx, hfail⟩
    · -- All embeddings are read, and their rows are added.
      rw [htake] at hindex ⊢
      have hindex' : s'.index = s.index := hindex
      refine keeps_ok_iff doc hdim hd hshape ?_ hrows
      dsimp only
      rw [hindex']
    · rw [htake]
      cases row_error hdim hd (hshape x hx) hfail
      refine iff_of_false (not_keeps_outOfBounds doc) fun hreads => ?_
      obtain ⟨values, hvalues, -⟩ := (row_elements_iff hdim hd (hshape x hx)).mpr (hreads x hx)
      rw [hfail] at hvalues
      cases hvalues
  · have hbad : ∃ input ∈ inputs, input.embedding.shape ≠ [UInt64.ofNat d] := by
      simpa using hshape
    refine iff_of_true ?_ (.inl hbad)
    obtain ⟨input, hin, hne⟩ := hbad
    obtain ⟨what, hrefuse⟩ :=
      s.addVectors_refuses hin fun h => hne ((isValidEmbedding_iff hdim hd).mp h)
    rw [hrefuse]
    exact .inl ⟨rfl, what, rfl⟩

/-- `retrieve` throws and changes nothing, or it searches for nothing, or what it searches for are
the elements of the query. -/
def Searches (s : FaissStore F) (q : Ndarray) (topK : UInt64) : Prop :=
  ((s.retrieve q topK).1 = s ∧ ∃ what, (s.retrieve q topK).2 = .error (.exception what)) ∨
    (s.retrieve q topK = (s, .ok [])) ∨
    ∃ values, s.row q = .ok values ∧ q.elements (F.d s.index) = some values

theorem readResults_length (documents : UnorderedMap Int64 Document) (found : List (Int64 × ℕ)) :
    (readResults documents found).2.length = found.length := by
  induction found generalizing documents with
  | nil => rfl
  | cons f found ih => exact congrArg Nat.succ (ih (documentAt documents f.1).1)

/-- When `retrieve` searches for the elements of the query. -/
theorem retrieve_searches_iff (doc : F.Documented) (hdim : F.d s.index = d) (hd : d < 2 ^ 31)
    (q : Ndarray) (topK : UInt64) :
    s.Searches q topK ↔ q.shape ≠ [UInt64.ofNat d] ∨ F.ntotal s.index = 0 ∨ topK.toNat = 0 ∨
      2 ^ 63 ≤ topK.toNat ∨ q.Reads d := by
  unfold Searches
  by_cases hshape : q.shape = [UInt64.ofNat d]
  · rw [or_iff_right (not_not.mpr hshape), ← row_elements_iff hdim hd hshape, hdim,
      retrieve_eq ((isValidEmbedding_iff hdim hd).mpr hshape)]
    by_cases hlarge : 2 ^ 63 ≤ topK.toNat
    · rw [if_pos hlarge]
      exact iff_of_true (.inl ⟨rfl, _, rfl⟩) (.inr (.inr (.inl hlarge)))
    · rw [if_neg hlarge]
      by_cases hzero : min (F.ntotal s.index) topK.toNat = 0
      · rw [if_pos hzero]
        exact iff_of_true (.inr (.inl rfl)) (by omega)
      · have hsome : ¬ F.ntotal s.index = 0 ∧ ¬ topK.toNat = 0 := by omega
        rw [if_neg hzero, or_iff_right hsome.1, or_iff_right hsome.2, or_iff_right hlarge]
        -- something is searched for, so the call returns results or leaves some bytes
        refine ⟨?_, fun h => .inr (.inr h)⟩
        cases hread : s.row q with
        | error f =>
          cases row_error hdim hd hshape hread
          rintro (⟨-, what, hwhat⟩ | hnone | hvalues)
          · cases hwhat
          · cases hnone
          · exact hvalues
        | ok row =>
          dsimp only
          by_cases hloop : 2 ^ 31 ≤ min (F.ntotal s.index) topK.toNat
          · rw [if_pos hloop]
            rintro (⟨-, what, hwhat⟩ | hnone | hvalues)
            · cases hwhat
            · cases hnone
            · exact hvalues
          · rw [if_neg hloop]
            rintro (⟨-, what, hwhat⟩ | hnone | hvalues)
            · cases hwhat
            · have hempty := Except.ok.inj (Prod.mk.inj hnone).2
              have hlen := readResults_length s.documentStore
                (F.search s.index row (min (F.ntotal s.index) topK.toNat))
              rw [hempty, doc.search_length, List.length_nil] at hlen
              omega
            · exact hvalues
  · unfold retrieve
    rw [if_neg fun h => hshape ((isValidEmbedding_iff hdim hd).mp h)]
    exact iff_of_true (.inl ⟨rfl, _, rfl⟩) (.inl hshape)

/-- A call leaves the dimension. -/
theorem step_d (doc : F.Documented) (s : FaissStore F) (act : StoreAct) :
    F.d (s.step act).1.index = F.d s.index := by
  cases act with
  | addVector input =>
    show F.d (s.addVector input).1.index = F.d s.index
    rcases addVector_index s input with ⟨i, row, -, hindex⟩ | ⟨-, hindex⟩
    · rw [hindex, doc.d_add]
    · rw [hindex]
  | addVectors inputs =>
    show F.d (s.addVectors inputs).1.index = F.d s.index
    rcases addVectors_index s inputs with ⟨rows, -, hindex⟩ | ⟨-, hindex⟩
    · rw [hindex, doc.d_add]
    · rw [hindex]
  | getById k => rw [step_index_of_isRead s rfl]
  | retrieve q topK => rw [step_index_of_isRead s rfl]
  | removeVector k => exact doc.d_remove _ _
  | clear => exact doc.d_remove _ _

theorem after_d (doc : F.Documented) (s : FaissStore F) (acts : List StoreAct) :
    F.d (s.after acts).index = F.d s.index := by
  induction acts generalizing s with
  | nil => rfl
  | cons act acts ih => exact (ih (s.step act).1).trans (step_d doc s act)

end FaissStore

/-! ## The types that are read -/

/-- Bytes of 64, as an element of four bytes or more and as a float. -/
theorem toFloat32_replicate {a : Ndarray} (hne : a.dtype ≠ float32) (hitem : 4 ≤ a.itemsize) :
    toFloat32 a.dtype (leNat (List.replicate a.itemsize 64)) ≠
      some (leNat (List.replicate 4 64)) := by
  unfold Ndarray.itemsize at hitem ⊢
  generalize a.dtype = dtype at *
  unfold toFloat32
  rw [if_neg hne]
  by_cases hlanes : dtype.lanes = 1
  · have hone : dtype.lanes.toNat = 1 := congrArg UInt16.toNat hlanes
    rw [if_neg (not_not.mpr hlanes)]
    rw [hone, Nat.mul_one] at hitem ⊢
    -- of the integers, those of four and of eight bytes are left
    have hwidth : dtype.bits.toNat ∈ [8, 16, 32, 64] →
        dtype.bits.toNat = 32 ∨ dtype.bits.toNat = 64 := by
      intro hmem
      simp only [List.mem_cons, List.not_mem_nil, or_false] at hmem
      omega
    dsimp only
    split
    · by_cases hmem : dtype.bits.toNat ∈ [8, 16, 32, 64]
      · rw [if_pos hmem]
        rcases hwidth hmem with hw | hw <;> rw [hw] <;> decide
      · rw [if_neg hmem]
        exact (Option.some_ne_none _).symm
    · by_cases hmem : dtype.bits.toNat ∈ [8, 16, 32, 64]
      · rw [if_pos hmem]
        rcases hwidth hmem with hw | hw <;> rw [hw] <;> decide
      · rw [if_neg hmem]
        exact (Option.some_ne_none _).symm
    · by_cases hdouble : dtype.bits.toNat = 64
      · rw [if_pos hdouble, hdouble]
        decide
      · rw [if_neg hdouble, if_neg (by omega)]
        exact (Option.some_ne_none _).symm
    · rw [if_neg (by omega)]
      exact (Option.some_ne_none _).symm
    · exact (Option.some_ne_none _).symm
  · rw [if_pos hlanes]
    exact (Option.some_ne_none _).symm

/-- The first of the values of a list. -/
theorem head_of_mapM {α β : Type} {f : α → Option β} {x : α} {xs : List α} {b : β} {bs : List β}
    (h : (x :: xs).mapM f = some (b :: bs)) : f x = some b := by
  rw [List.mapM_cons] at h
  cases hx : f x with
  | none =>
    rw [hx] at h
    cases h
  | some y =>
    rw [hx] at h
    cases hxs : xs.mapM f with
    | none =>
      rw [hxs] at h
      cases h
    | some ys =>
      rw [hxs] at h
      cases h
      rfl

/-- All arrays of a type are read as they should be when the type is `float32`. -/
theorem reads_dtype_iff (d : ℕ) (dtype : DLDataType) :
    (∀ a : Ndarray, a.dtype = dtype → a.data.length = d * a.itemsize → a.Reads d) ↔
      d = 0 ∨ dtype = float32 := by
  constructor
  · intro h
    by_contra hnot
    obtain ⟨hd, hne⟩ := not_or.mp hnot
    obtain ⟨k, rfl⟩ := Nat.exists_eq_succ_of_ne_zero hd
    -- an array whose bytes are all 64
    let size : ℕ := (⟨[], dtype, []⟩ : Ndarray).itemsize
    let a : Ndarray := ⟨[], dtype, List.replicate ((k + 1) * size) 64⟩
    have hitem : a.itemsize = size := rfl
    have hreads : a.Reads (k + 1) := h a rfl List.length_replicate
    rcases hreads with hzero | ⟨hfloat, -⟩ | ⟨-, hfour, helements⟩
    · omega
    · exact hne hfloat
    · refine toFloat32_replicate (a := a) hne hfour ?_
      -- The first element and the first float, whose bytes are all 64.
      have hword : ∀ w ≤ a.itemsize, wordAt w a.data 0 = leNat (List.replicate w 64) := by
        intro w hw
        have hmul : size ≤ (k + 1) * size := Nat.le_mul_of_pos_left _ (Nat.succ_pos k)
        show leNat (((List.replicate ((k + 1) * size) 64).drop (w * 0)).take w) = _
        rw [Nat.mul_zero, List.drop_zero, List.take_replicate, Nat.min_eq_left (by omega)]
      rw [← hword _ le_rfl, ← hword 4 hfour]
      unfold Ndarray.elements Ndarray.floats at helements
      rw [if_pos (by rw [hitem]; exact List.length_replicate.ge), List.range_succ_eq_map,
        List.map_cons] at helements
      have hfirst := head_of_mapM helements
      exact hfirst
  · rintro (rfl | rfl) a hdtype hlen
    · exact .inl rfl
    · rw [Ndarray.itemsize_float32 hdtype] at hlen
      exact .inr (.inl ⟨hdtype, by omega⟩)

/-- The number one in double precision. -/
def doubleOne : Ndarray := ⟨[1], ⟨2, 64, 1⟩, [0, 0, 0, 0, 0, 0, 0xf0, 0x3f]⟩

/-- The number one as an integer of one byte. -/
def byteOne : Ndarray := ⟨[1], ⟨0, 8, 1⟩, [1]⟩

end Ailoy
