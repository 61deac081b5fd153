import Ailoy.Vm.SplitUtf8

/-!
# How long the chunks are

A window of `_merge_splits` grows only while it fits, and what is carried over into the next window
is the longest end of it that leaves room (`carried_over`). The `while` loop also stops when the
total is zero. So an empty fragment is carried over whether there is room or not, and then the
separator and the next fragment make a window of their own: this is the one way to a chunk that is
too long (`chunks_bounded_iff`). With separators that are blank, trimming takes the separator away
again, and all chunks of the recursive splitter with its default separators are bounded
(`recursive_chunks_bounded`).
-/

namespace Ailoy

namespace SplitText

variable {separator s : Text} {chunkSize chunkOverlap : ℕ} {w w' : Window}

/-! ## The windows of a run -/

/-- The loop over two runs of fragments. -/
theorem mergeLoop_append (flength : Text → ℕ) (pre post : List Text) (w : Window) :
    mergeLoop separator chunkSize chunkOverlap flength (pre ++ post) w =
      mergeLoop separator chunkSize chunkOverlap flength pre w >>=
        mergeLoop separator chunkSize chunkOverlap flength post := by
  induction pre generalizing w with
  | nil => rfl
  | cons s pre ih =>
    rw [List.cons_append, mergeLoop, mergeLoop]
    cases mergeStep separator chunkSize chunkOverlap flength w s with
    | error f => rfl
    | ok w₁ => exact ih w₁

/-- An iteration keeps the documents. -/
theorem Merged.docs_subset (h : Merged separator chunkSize chunkOverlap s w w') :
    w.docs ⊆ w'.docs := by
  cases h with
  | grow _ => exact List.Subset.refl _
  | complete _ _ _ =>
    dsimp only
    rw [completeDocument_eq]
    exact List.subset_append_left _ _

/-- The loop ends with the right total, and it keeps the documents. -/
theorem mergeLoop_ok (separator : Text) (chunkSize chunkOverlap : ℕ) (splits : List Text)
    (h : w.total = (join separator w.current).length) :
    ∃ w', mergeLoop separator chunkSize chunkOverlap List.length splits w = .ok w' ∧
      w'.total = (join separator w'.current).length ∧ w.docs ⊆ w'.docs := by
  induction splits generalizing w with
  | nil => exact ⟨w, rfl, h, List.Subset.refl _⟩
  | cons s splits ih =>
    obtain ⟨w₁, hstep, hmerged⟩ := mergeStep_ok separator chunkSize chunkOverlap s h
    obtain ⟨w', hloop, htotal, hdocs⟩ := ih hmerged.total
    refine ⟨w', ?_, htotal, List.Subset.trans hmerged.docs_subset hdocs⟩
    rw [mergeLoop, hstep, Except.ok_bind, hloop]

/-- What `_merge_splits` carries over when a fragment does not fit: the longest end of the window
that is short enough and leaves room for the fragment, and so no more than the overlap. -/
theorem carried_over {name : String} {flength : Text → ℕ}
    (hname : lengthFunction name = .ok flength) (separator : Text) (chunkSize chunkOverlap : ℕ)
    (pre : List Text) (s : Text) (post : List Text) :
    ∃ w, mergeLoop separator chunkSize chunkOverlap flength pre ⟨[], [], 0⟩ = .ok w ∧
      (w.current ≠ [] → chunkSize < flength (join separator (w.current ++ [s])) →
        ∃ kept, Carried separator chunkSize chunkOverlap (flength s) w.current kept ∧
          flength (join separator kept) ≤ chunkOverlap ∧
          mergeLoop separator chunkSize chunkOverlap flength (pre ++ s :: post) ⟨[], [], 0⟩ =
            mergeLoop separator chunkSize chunkOverlap flength post
              ⟨completeDocument separator w.docs w.current, kept ++ [s],
                flength (join separator (kept ++ [s]))⟩) := by
  obtain rfl : flength = List.length := by
    unfold lengthFunction at hname
    split_ifs at hname
    exact (Except.ok.inj hname).symm
  obtain ⟨w, hloop, htotal, -⟩ :=
    mergeLoop_ok separator chunkSize chunkOverlap pre (w := ⟨[], [], 0⟩) rfl
  refine ⟨w, hloop, fun hne hfull => ?_⟩
  obtain ⟨w₁, hstep, hmerged⟩ := mergeStep_ok separator chunkSize chunkOverlap s htotal
  cases hmerged with
  | grow hroom =>
    -- A window that the fragment overflows does not grow.
    exact absurd (hroom hne) (not_le.mpr hfull)
  | @complete kept _ _ hcarried =>
    refine ⟨kept, hcarried, hcarried.fits.1, ?_⟩
    rw [mergeLoop_append, hloop, Except.ok_bind, mergeLoop, hstep, Except.ok_bind]

/-- With room for six bytes, the window of `ab`, `c` and `d` is full when `e` comes. -/
theorem carried_over_abcd :
    ∃ w, mergeLoop [0x20] 6 2 List.length [[0x61, 0x62], [0x63], [0x64]] ⟨[], [], 0⟩ = .ok w ∧
      (w.current ≠ [] → 6 < (join [0x20] (w.current ++ [[0x65]])).length →
        ∃ kept, Carried [0x20] 6 2 1 w.current kept ∧ (join [0x20] kept).length ≤ 2 ∧
          mergeLoop [0x20] 6 2 List.length ([[0x61, 0x62], [0x63], [0x64]] ++ [0x65] :: [])
              ⟨[], [], 0⟩ =
            mergeLoop [0x20] 6 2 List.length []
              ⟨completeDocument [0x20] w.docs w.current, kept ++ [[0x65]],
                (join [0x20] (kept ++ [[0x65]])).length⟩) :=
  carried_over (show lengthFunction "default" = .ok List.length from rfl) [0x20] 6 2
    [[0x61, 0x62], [0x63], [0x64]] [0x65] []

/-! ## Merged chunks -/

/-- An empty fragment in front of another one leaves room for the separator between them, or the
separator is trimmed away. -/
def RoomBehindEmpty (separator : Text) (chunkSize : ℕ) (fragments : List Text) : Prop :=
  ∀ pre s post, fragments = pre ++ [] :: s :: post → (trim (separator ++ s)).length ≤ chunkSize

/-- All chunks fit. -/
def Bounded (chunkSize : ℕ) (chunks : List Text) : Prop := ∀ c ∈ chunks, c.length ≤ chunkSize

theorem Bounded.append {chunks chunks' : List Text} (h : Bounded chunkSize chunks)
    (h' : Bounded chunkSize chunks') : Bounded chunkSize (chunks ++ chunks') := fun c hc =>
  (List.mem_append.mp hc).elim (h c) (h' c)

theorem trim_length_le (t : Text) : (trim t).length ≤ t.length := Pieces.length_trim_le isspace t

/-- What is put out of a window is its trimmed join. -/
theorem mem_completeDocument {docs current : List Text} {c : Text} :
    c ∈ completeDocument separator docs current ↔
      c ∈ docs ∨ c = trim (join separator current) ∧ c ≠ [] := by
  rw [completeDocument_eq, List.mem_append]
  unfold documents
  simp only [List.map_cons, List.map_nil, List.mem_filter, List.mem_singleton, decide_eq_true_eq]

/-- A window that fits when it is trimmed gives a chunk that fits. -/
theorem bounded_completeDocument {docs current : List Text} (hdocs : Bounded chunkSize docs)
    (hcurrent : (trim (join separator current)).length ≤ chunkSize) :
    Bounded chunkSize (completeDocument separator docs current) := by
  intro c hc
  rcases mem_completeDocument.mp hc with hc | ⟨rfl, -⟩
  · exact hdocs c hc
  · exact hcurrent

/-- A window without bytes, at a separator that has some, is at most an empty fragment. -/
theorem eq_of_join_length_zero {current : List Text} (hne : current ≠ [])
    (hsep : separator.length ≠ 0) (h : (join separator current).length = 0) : current = [[]] := by
  obtain ⟨first, rest, rfl⟩ := List.exists_cons_of_ne_nil hne
  have hlen := length_join_cons separator first rest
  have hrest : rest = [] := by
    by_contra hrest
    rw [if_pos hrest] at hlen
    omega
  have hfirst : first.length = 0 := by omega
  rw [hrest, List.eq_nil_of_length_eq_zero hfirst]

/-- The next window fits when it is trimmed, if there is room behind an empty fragment. -/
theorem Merged.fits (h : Merged separator chunkSize chunkOverlap s w w')
    (hs : s.length ≤ chunkSize)
    (hroom : ∀ front, w.current = front ++ [[]] → (trim (separator ++ s)).length ≤ chunkSize) :
    (trim (join separator w'.current)).length ≤ chunkSize := by
  have htrim := trim_length_le (join separator w'.current)
  cases h with
  | grow hgrow =>
    dsimp only at htrim ⊢
    by_cases hne : w.current = []
    · have hjoin : join separator [s] = s := Pieces.join_singleton s
      rw [hne, List.nil_append, hjoin] at htrim ⊢
      omega
    · have := hgrow hne
      omega
  | @complete kept _ _ hcarried =>
    dsimp only at htrim ⊢
    have hlen := length_join_concat separator s kept
    rcases hcarried.fits.2 with hfit | hzero
    · omega
    · -- Nothing is carried over, or only empty fragments.
      by_cases hkept : kept = []
      · rw [if_neg (not_not.mpr hkept)] at hlen
        omega
      · by_cases hsep : separator.length = 0
        · rw [if_pos hkept] at hlen
          omega
        · obtain ⟨front, hfront⟩ := hcarried.suffix
          rw [eq_of_join_length_zero hkept hsep hzero] at hfront ⊢
          have hjoin : join separator ([[]] ++ [s]) = separator ++ s := by simp [join, Pieces.join]
          rw [hjoin]
          exact hroom front hfront.symm

/-- The loop of `_merge_splits` keeps all chunks small. -/
theorem mergeLoop_bounded (chunkOverlap : ℕ) {pieces dropped splits : List Text}
    (hs : Bounded chunkSize pieces) (hroom : RoomBehindEmpty separator chunkSize pieces)
    (hpieces : pieces = dropped ++ (w.current ++ splits))
    (htotal : w.total = (join separator w.current).length) (hdocs : Bounded chunkSize w.docs)
    (hcurrent : (trim (join separator w.current)).length ≤ chunkSize) :
    ∃ w', mergeLoop separator chunkSize chunkOverlap List.length splits w = .ok w' ∧
      Bounded chunkSize w'.docs ∧ (trim (join separator w'.current)).length ≤ chunkSize := by
  induction splits generalizing w dropped with
  | nil => exact ⟨w, rfl, hdocs, hcurrent⟩
  | cons s splits ih =>
    obtain ⟨w₁, hstep, hmerged⟩ := mergeStep_ok separator chunkSize chunkOverlap s htotal
    have hs' : s.length ≤ chunkSize := hs s (by rw [hpieces]; simp)
    -- The end of the window stands directly in front of `s` in the text.
    have hfits := hmerged.fits hs' fun front hfront => by
      refine hroom (dropped ++ front) s splits ?_
      rw [hpieces, hfront]
      simp
    have hdocs₁ : Bounded chunkSize w₁.docs := by
      cases hmerged with
      | grow _ => exact hdocs
      | complete _ _ _ => exact bounded_completeDocument hdocs hcurrent
    obtain ⟨kept, ⟨gone, hgone⟩, hcurrent₁⟩ := hmerged.current
    have hpieces₁ : pieces = (dropped ++ gone) ++ (w₁.current ++ splits) := by
      rw [hpieces, hcurrent₁, ← hgone]
      simp
    rw [mergeLoop, hstep, Except.ok_bind]
    exact ih hpieces₁ hmerged.total hdocs₁ hfits

/-- `_merge_splits` returns chunks that fit, if there is room behind empty fragments. -/
theorem mergeSplits_bounded (chunkOverlap : ℕ) {pieces : List Text} (hs : Bounded chunkSize pieces)
    (hroom : RoomBehindEmpty separator chunkSize pieces) :
    ∃ chunks, mergeSplits separator chunkSize chunkOverlap List.length pieces = .ok chunks ∧
      Bounded chunkSize chunks := by
  have hnone : Bounded chunkSize [] := fun c hc => absurd hc List.not_mem_nil
  have hpieces : pieces = [] ++ ((⟨[], [], 0⟩ : Window).current ++ pieces) := rfl
  obtain ⟨w, hloop, hdocs, hcurrent⟩ := mergeLoop_bounded chunkOverlap hs hroom hpieces rfl hnone
    (Nat.zero_le _)
  refine ⟨_, ?_, bounded_completeDocument hdocs hcurrent⟩
  rw [mergeSplits, hloop, Except.ok_bind]
  rfl

/-- A window that is too long does not grow, so it is put out. -/
theorem mem_of_full_window {splits : List Text} (htotal : w.total = (join separator w.current).length)
    (hne : w.current ≠ []) (hfull : chunkSize < (join separator w.current).length)
    (hdoc : trim (join separator w.current) ≠ [])
    (h : mergeLoop separator chunkSize chunkOverlap List.length splits w = .ok w') :
    trim (join separator w.current) ∈ completeDocument separator w'.docs w'.current := by
  cases splits with
  | nil =>
    obtain rfl : w = w' := Except.ok.inj h
    exact mem_completeDocument.mpr (.inr ⟨rfl, hdoc⟩)
  | cons s splits =>
    obtain ⟨w₁, hstep, hmerged⟩ := mergeStep_ok separator chunkSize chunkOverlap s htotal
    have hout : trim (join separator w.current) ∈ w₁.docs := by
      cases hmerged with
      | grow hgrow =>
        have hlen := length_join_concat separator s w.current
        have := hgrow hne
        omega
      | complete _ _ _ => exact mem_completeDocument.mpr (.inr ⟨rfl, hdoc⟩)
    obtain ⟨w'', hloop, -, hdocs⟩ := mergeLoop_ok separator chunkSize chunkOverlap splits hmerged.total
    rw [mergeLoop, hstep, Except.ok_bind, hloop] at h
    obtain rfl : w'' = w' := Except.ok.inj h
    exact mem_completeDocument.mpr (.inl (hdocs hout))

/-- Without room behind an empty fragment, the separator and the next fragment are a chunk. -/
theorem mem_mergeSplits {pre post chunks : List Text} (hs : s.length ≤ chunkSize)
    (hlong : chunkSize < (trim (separator ++ s)).length)
    (h : mergeSplits separator chunkSize chunkOverlap List.length (pre ++ [] :: s :: post) =
      .ok chunks) : trim (separator ++ s) ∈ chunks := by
  have htrim := trim_length_le (separator ++ s)
  rw [List.length_append] at htrim
  -- The window ends with the empty fragment when the next one comes.
  obtain ⟨w₀, hloop₀, htotal₀, -⟩ :=
    mergeLoop_ok separator chunkSize chunkOverlap pre (w := ⟨[], [], 0⟩) rfl
  obtain ⟨w₁, hstep₁, hmerged₁⟩ := mergeStep_ok separator chunkSize chunkOverlap [] htotal₀
  obtain ⟨front, -, hcurrent₁⟩ := hmerged₁.current
  have hlen₁ := length_join_concat separator s w₁.current
  obtain ⟨w₂, hstep₂, hmerged₂⟩ := mergeStep_ok separator chunkSize chunkOverlap s hmerged₁.total
  have hne₁ : w₁.current ≠ [] := by simp [hcurrent₁]
  rw [if_pos hne₁] at hlen₁
  -- It is carried over, and nothing in front of it is, since there is no room.
  have hcurrent₂ : w₂.current = [[], s] := by
    cases hmerged₂ with
    | grow hgrow =>
      have := hgrow hne₁
      omega
    | @complete kept _ _ hcarried =>
      have hzero : (join separator [[]]).length = 0 := by simp [join]
      have hempty : [[]] <:+ kept :=
        hcarried.longest [[]] ⟨front, hcurrent₁.symm⟩ ⟨by omega, .inr hzero⟩
      have hne : kept ≠ [] := by
        rintro rfl
        exact absurd (List.suffix_nil.mp hempty) (List.cons_ne_nil _ _)
      have hkept : kept = [[]] := by
        rcases hcarried.fits.2 with hfit | hblank
        · rw [if_pos hne] at hfit
          omega
        · exact eq_of_join_length_zero hne (by omega) hblank
      rw [hkept]
      rfl
  have hjoin₂ : join separator w₂.current = separator ++ s := by
    rw [hcurrent₂]
    simp [join, Pieces.join]
  obtain ⟨w, hloop, hw⟩ := Except.bind_eq_ok_iff.mp h
  obtain rfl := Except.ok.inj hw
  rw [mergeLoop_append, hloop₀, Except.ok_bind, mergeLoop, hstep₁, Except.ok_bind, mergeLoop, hstep₂,
    Except.ok_bind] at hloop
  have hmem := mem_of_full_window hmerged₂.total (by simp [hcurrent₂])
    (by rw [hjoin₂, List.length_append]; omega)
    (by rw [hjoin₂]; exact List.ne_nil_of_length_pos (by omega)) hloop
  rwa [hjoin₂] at hmem

/-- When the fragments of a text fit, the chunks of `split_text_by_separator` do if and only if there
is room behind empty fragments. -/
theorem chunks_bounded_iff (text separator : Text) (chunkSize chunkOverlap : ℕ) (name : String)
    (hoverlap : chunkOverlap ≤ chunkSize) (hname : name = "default" ∨ name = "string")
    (hfragments : Bounded chunkSize (splitText text separator)) :
    (∃ chunks, splitTextBySeparator text chunkSize chunkOverlap separator name = .ok chunks ∧
      Bounded chunkSize chunks) ↔
    RoomBehindEmpty separator chunkSize (splitText text separator) := by
  have hsplit : splitTextBySeparator text chunkSize chunkOverlap separator name =
      mergeSplits separator chunkSize chunkOverlap List.length (splitText text separator) := by
    rw [splitTextBySeparator, checkChunkOverlap_of_le hoverlap, Except.ok_bind,
      lengthFunction_eq hname, Except.ok_bind]
  rw [hsplit]
  constructor
  · rintro ⟨chunks, hchunks, hbounded⟩ pre s post hpieces
    by_contra hlong
    have hs : s.length ≤ chunkSize := hfragments s (by rw [hpieces]; simp)
    rw [hpieces] at hchunks
    exact hlong (hbounded _ (mem_mergeSplits hs (not_le.mp hlong) hchunks))
  · exact mergeSplits_bounded chunkOverlap hfragments

/-- The text `a,b` at commas, in chunks of at most two bytes. -/
theorem chunks_bounded_iff_comma :
    (∃ chunks, splitTextBySeparator [0x61, 0x2c, 0x62] 2 1 [0x2c] "default" = .ok chunks ∧
      Bounded 2 chunks) ↔
    RoomBehindEmpty [0x2c] 2 (splitText [0x61, 0x2c, 0x62] [0x2c]) := by
  have hpieces : splitText [0x61, 0x2c, 0x62] [0x2c] = [[0x61], [0x62]] := rfl
  have hfragments : Bounded 2 (splitText [0x61, 0x2c, 0x62] [0x2c]) := by
    rw [hpieces]
    unfold Bounded
    decide
  exact chunks_bounded_iff [0x61, 0x2c, 0x62] [0x2c] 2 1 "default" (by decide) (.inl rfl) hfragments

/-- At commas, the text `,abc` has fragments of at most three bytes, and a chunk of four. -/
theorem comma_chunk_long :
    Bounded 3 (splitText [0x2c, 0x61, 0x62, 0x63] [0x2c]) ∧
      splitTextBySeparator [0x2c, 0x61, 0x62, 0x63] 3 0 [0x2c] "default" =
        .ok [[0x2c, 0x61, 0x62, 0x63]] ∧
      ¬ Bounded 3 [[0x2c, 0x61, 0x62, 0x63]] := by
  have hpieces : splitText [0x2c, 0x61, 0x62, 0x63] [0x2c] = [[], [0x61, 0x62, 0x63]] := rfl
  rw [hpieces]
  unfold Bounded
  exact ⟨by decide, rfl, by decide⟩

/-! ## The recursive splitter -/

/-- The separator consists of blanks, which are trimmed away. -/
def Blank (separator : Text) : Prop := ∀ c ∈ separator, isspace c = true

/-- A blank separator in front of a fragment takes no room. -/
theorem Blank.roomBehindEmpty (hsep : Blank separator) {pieces : List Text}
    (hs : Bounded chunkSize pieces) : RoomBehindEmpty separator chunkSize pieces := by
  intro pre s post hpieces
  have htrim : trim (separator ++ s) = trim s := Pieces.trim_append hsep s
  calc (trim (separator ++ s)).length = (trim s).length := by rw [htrim]
    _ ≤ s.length := trim_length_le s
    _ ≤ chunkSize := hs s (by rw [hpieces]; simp)

/-- The empty separator is behind the best one, unless it is the best one itself. -/
theorem nil_mem_pickFrom {text fallback : Text} {separators : List Text} (h : [] ∈ separators)
    (hbest : (pickFrom text fallback separators).1 ≠ []) :
    [] ∈ (pickFrom text fallback separators).2 := by
  induction separators with
  | nil => exact absurd h List.not_mem_nil
  | cons sep separators ih =>
    unfold pickFrom at hbest ⊢
    split_ifs at hbest ⊢ with hempty hin
    · exact absurd rfl hbest
    · exact (List.mem_cons.mp h).resolve_left (Ne.symm hempty)
    · exact ih ((List.mem_cons.mp h).resolve_left (Ne.symm hempty)) hbest

/-- The good splits are merged into chunks that fit. -/
theorem mergeSplitsAndPut_bounded (chunkOverlap : ℕ) {chunks good : List Text}
    (hchunks : Bounded chunkSize chunks) (hgood : Bounded chunkSize good)
    (hroom : RoomBehindEmpty separator chunkSize good) :
    ∃ chunks', mergeSplitsAndPut separator chunkSize chunkOverlap List.length chunks good =
      .ok chunks' ∧ Bounded chunkSize chunks' := by
  unfold mergeSplitsAndPut
  by_cases hne : good = []
  · exact ⟨chunks, if_neg (not_not.mpr hne), hchunks⟩
  · obtain ⟨merged, hmerge, hbounded⟩ := mergeSplits_bounded chunkOverlap hgood hroom
    refine ⟨chunks ++ merged, ?_, hchunks.append hbounded⟩
    rw [if_pos hne, hmerge, Except.ok_bind]
    rfl

/-- The loop of `_split_text_recursive` gives chunks that fit, when each split that is too big gives
such chunks. -/
theorem gather_bounded (hsep : Blank separator) (chunkOverlap : ℕ)
    {next : Text → Except Fault (List Text)} {splits good chunks : List Text}
    (hnext : ∀ s ∈ splits, chunkSize ≤ s.length → ∃ out, next s = .ok out ∧ Bounded chunkSize out)
    (hgood : Bounded chunkSize good) (hchunks : Bounded chunkSize chunks) :
    ∃ out, gather separator chunkSize chunkOverlap List.length next splits good chunks = .ok out ∧
      Bounded chunkSize out := by
  induction splits generalizing good chunks with
  | nil => exact mergeSplitsAndPut_bounded chunkOverlap hchunks hgood (hsep.roomBehindEmpty hgood)
  | cons s splits ih =>
    have hrest := fun t ht => hnext t (List.mem_cons_of_mem s ht)
    unfold gather
    by_cases hsmall : s.length < chunkSize
    · rw [if_pos hsmall]
      have hs : Bounded chunkSize [s] := fun t ht => by
        rw [List.mem_singleton.mp ht]
        exact hsmall.le
      exact ih hrest (hgood.append hs) hchunks
    · obtain ⟨merged, hmerge, hmerged⟩ :=
        mergeSplitsAndPut_bounded chunkOverlap hchunks hgood (hsep.roomBehindEmpty hgood)
      obtain ⟨inside, hinside, hbounded⟩ := hnext s (List.mem_cons_self ..) (not_lt.mp hsmall)
      rw [if_neg hsmall, hmerge, Except.ok_bind, hinside, Except.ok_bind]
      exact ih hrest (fun t ht => absurd ht List.not_mem_nil) (hmerged.append hbounded)

/-- `_split_text_recursive` at blank separators that end with the empty one, by induction on their
number. -/
theorem splitTextRecursive_bounded (chunkOverlap : ℕ) (hsize : 1 ≤ chunkSize)
    {separators : List Text} (hempty : [] ∈ separators) (hblank : ∀ sep ∈ separators, Blank sep)
    (text : Text) :
    ∃ chunks, splitTextRecursive chunkSize chunkOverlap List.length separators text = .ok chunks ∧
      Bounded chunkSize chunks := by
  have hnone : Bounded chunkSize [] := fun c hc => absurd hc List.not_mem_nil
  generalize hn : separators.length = n
  induction n using Nat.strong_induction_on generalizing separators text with
  | _ n ih =>
    obtain ⟨sep, seps, rfl⟩ := List.exists_cons_of_ne_nil (List.ne_nil_of_mem hempty)
    have hfewer : (pickBestSeparator text (sep :: seps)).2.length < n := by
      rw [← hn]
      exact pickFrom_length text _ sep seps
    obtain ⟨hmem, hsub⟩ := pickBestSeparator_mem text (List.cons_ne_nil sep seps)
    rw [splitTextRecursive]
    refine gather_bounded (hblank _ hmem) chunkOverlap (fun s hs _ => ?_) hnone hnone
    by_cases hbest : (pickBestSeparator text (sep :: seps)).1 = []
    · -- The text falls into single bytes.
      rw [hbest, splitText_nil] at hs
      obtain ⟨c, -, rfl⟩ := List.mem_map.mp hs
      refine ⟨[[c]], if_pos (pickFrom_nil hbest), fun t ht => ?_⟩
      rw [List.mem_singleton.mp ht]
      exact hsize
    · -- Fewer separators are left, and the empty one is still among them.
      have hnil : [] ∈ (pickBestSeparator text (sep :: seps)).2 := nil_mem_pickFrom hempty hbest
      rw [if_neg (List.ne_nil_of_mem hnil)]
      exact ih _ hfewer hnil (fun sep hsep => hblank sep (hsub sep hsep)) s rfl

/-- The chunks of `split_text_by_separators_recursively` with the default separators fit. -/
theorem recursive_chunks_bounded (text : Text) (chunkSize chunkOverlap : ℕ) (name : String)
    (hsize : 1 ≤ chunkSize) (hoverlap : chunkOverlap ≤ chunkSize)
    (hname : name = "default" ∨ name = "string") :
    ∃ chunks, splitTextBySeparatorsRecursively text chunkSize chunkOverlap defaultSeparators name =
      .ok chunks ∧ ∀ c ∈ chunks, c.length ≤ chunkSize := by
  rw [splitTextBySeparatorsRecursively, checkChunkOverlap_of_le hoverlap, Except.ok_bind,
    lengthFunction_eq hname, Except.ok_bind]
  have hblank : ∀ sep ∈ defaultSeparators, Blank sep := by
    have hall : defaultSeparators.all (·.all isspace) = true := rfl
    exact fun sep hsep => List.all_eq_true.mp (List.all_eq_true.mp hall sep hsep)
  exact splitTextRecursive_bounded chunkOverlap hsize (by decide) hblank text

/-- The text `ab c` in chunks of at most two bytes. -/
theorem recursive_chunks_bounded_abc :
    ∃ chunks, splitTextBySeparatorsRecursively [0x61, 0x62, 0x20, 0x63] 2 1 defaultSeparators
      "default" = .ok chunks ∧ ∀ c ∈ chunks, c.length ≤ 2 :=
  recursive_chunks_bounded [0x61, 0x62, 0x20, 0x63] 2 1 "default" (by decide) (by decide) (.inl rfl)

end SplitText

end Ailoy
