import Ailoy.Lib.CharCode
import Ailoy.Vm.SplitCover
import Ailoy.Vm.SplitTextOps

/-!
# Where the text splitters cut characters

The splitters count bytes, and at the empty separator they cut a text into single bytes. At any
other separator that is valid UTF-8, all pieces of a valid text are valid, and so are the chunks that
are merged of them (`mergeSplits_valid`). The single bytes of a piece are merged into windows at
fixed distances (`mergeSplits_singles`), whatever the characters are. So the chunks are valid exactly
when each piece that comes to the empty separator begins a character at the ends of its windows
(`chunks_valid_iff`).
-/

namespace Ailoy

namespace SplitText

open CharCode (windows)

/-- The bytes are UTF-8, a whole number of characters. -/
def ValidUtf8 (t : Text) : Prop := utf8.Valid t

variable {separator text : Text} {chunkSize chunkOverlap : ℕ}

theorem valid_of_lt {c : UInt8} (h : c < 0x80) : ValidUtf8 [c] := by
  have hsize : (Char.ofUInt8 c).utf8Size = 1 := by
    have hle : (Char.ofUInt8 c).val ≤ 0x7f := by
      have hc : c.toNat < 128 := h
      have hval : (Char.ofUInt8 c).val.toNat = c.toNat := UInt8.toNat_toUInt32 c
      rw [UInt32.le_iff_toNat_le, hval]
      exact Nat.le_of_lt_succ hc
    exact Char.utf8Size_eq_one_iff.mpr hle
  have hencode : utf8.encode (Char.ofUInt8 c) = [c] := by
    have hbyte : (Char.ofUInt8 c).val.toUInt8 = c := UInt8.toUInt8_toUInt32 c
    have hone := String.utf8EncodeChar_eq_singleton hsize
    rw [hbyte] at hone
    exact hone
  exact hencode ▸ CharCode.valid_encode (Char.ofUInt8 c)

theorem valid_of_isspace {c : UInt8} (h : isspace c = true) : ValidUtf8 [c] := by
  refine valid_of_lt ?_
  unfold isspace at h
  rw [decide_eq_true_iff] at h
  rcases h with rfl | ⟨-, hle⟩
  · decide
  · exact UInt8.lt_of_le_of_lt hle (by decide)

/-- The default separators are valid. -/
theorem valid_defaultSeparators : ∀ s ∈ defaultSeparators, ValidUtf8 s := by
  have hnewline : ValidUtf8 [0x0A] := valid_of_isspace rfl
  have hblank : ValidUtf8 [0x20] := valid_of_isspace rfl
  intro s hs
  have hlist : defaultSeparators = [[0x0A, 0x0A], [0x0A], [0x20], []] := by decide
  rw [hlist] at hs
  rcases List.mem_cons.mp hs with rfl | hs
  · exact CharCode.Valid.append hnewline hnewline
  rcases List.mem_cons.mp hs with rfl | hs
  · exact hnewline
  rcases List.mem_cons.mp hs with rfl | hs
  · exact hblank
  · rw [List.mem_singleton.mp hs]
    exact CharCode.valid_nil

/-! ## Merged pieces -/

/-- The documents of a run of windows: those that are not blank, trimmed. -/
def documents (ws : List Text) : List Text := (ws.map trim).filter (· ≠ [])

theorem documents_append (ws ws' : List Text) :
    documents (ws ++ ws') = documents ws ++ documents ws' := by
  unfold documents
  rw [List.map_append, List.filter_append]

theorem completeDocument_eq (docs current : List Text) :
    completeDocument separator docs current = docs ++ documents [join separator current] := by
  unfold completeDocument documents
  by_cases hdoc : trim (join separator current) = []
  · simp [hdoc]
  · simp [hdoc]

theorem valid_documents_iff {ws : List Text} :
    (∀ d ∈ documents ws, ValidUtf8 d) ↔ ∀ w ∈ ws, ValidUtf8 w := by
  have htrim : ∀ w, ValidUtf8 (trim w) ↔ ValidUtf8 w := fun w =>
    CharCode.valid_trim_iff fun c hc => valid_of_isspace hc
  constructor
  · intro h w hw
    by_cases hdoc : trim w = []
    · exact (htrim w).mp (hdoc ▸ CharCode.valid_nil)
    · exact (htrim w).mp (h _ (List.mem_filter.mpr ⟨List.mem_map_of_mem hw, by simpa using hdoc⟩))
  · intro h d hd
    obtain ⟨w, hw, rfl⟩ := List.mem_map.mp (List.mem_filter.mp hd).1
    exact (htrim w).mpr (h w hw)

theorem valid_completeDocument {docs current : List Text} (hsep : ValidUtf8 separator)
    (hdocs : ∀ d ∈ docs, ValidUtf8 d) (hcurrent : ∀ s ∈ current, ValidUtf8 s) :
    ∀ d ∈ completeDocument separator docs current, ValidUtf8 d := by
  intro d hd
  rw [completeDocument_eq] at hd
  rcases List.mem_append.mp hd with hd | hd
  · exact hdocs d hd
  · refine valid_documents_iff.mpr (fun w hw => ?_) d hd
    rw [List.mem_singleton.mp hw]
    exact CharCode.valid_join hsep hcurrent

/-- The loop of `_merge_splits` keeps its documents and its window valid. -/
theorem mergeLoop_valid (hsep : ValidUtf8 separator) {splits : List Text} {w w' : Window}
    (htotal : w.total = (join separator w.current).length) (hdocs : ∀ d ∈ w.docs, ValidUtf8 d)
    (hcurrent : ∀ s ∈ w.current, ValidUtf8 s) (hsplits : ∀ s ∈ splits, ValidUtf8 s)
    (h : mergeLoop separator chunkSize chunkOverlap List.length splits w = .ok w') :
    (∀ d ∈ w'.docs, ValidUtf8 d) ∧ ∀ s ∈ w'.current, ValidUtf8 s := by
  induction splits generalizing w with
  | nil =>
    obtain rfl : w = w' := Except.ok.inj h
    exact ⟨hdocs, hcurrent⟩
  | cons s splits ih =>
    obtain ⟨w₁, hstep, hmerged⟩ := mergeStep_ok separator chunkSize chunkOverlap s htotal
    obtain ⟨kept, hkept, hcurrent₁⟩ := hmerged.current
    rw [mergeLoop, hstep, Except.ok_bind] at h
    have hdocs₁ : ∀ d ∈ w₁.docs, ValidUtf8 d := by
      cases hmerged with
      | grow _ => exact hdocs
      | complete _ _ _ => exact valid_completeDocument hsep hdocs hcurrent
    refine ih hmerged.total hdocs₁ (fun x hx => ?_)
      (fun x hx => hsplits x (List.mem_cons_of_mem s hx)) h
    rw [hcurrent₁] at hx
    rcases List.mem_append.mp hx with hx | hx
    · exact hcurrent x (hkept.mem hx)
    · rw [List.mem_singleton.mp hx]
      exact hsplits s (List.mem_cons_self ..)

/-- Valid pieces and a valid separator merge into valid chunks. -/
theorem mergeSplits_valid (hsep : ValidUtf8 separator) {splits chunks : List Text}
    (hsplits : ∀ s ∈ splits, ValidUtf8 s)
    (h : mergeSplits separator chunkSize chunkOverlap List.length splits = .ok chunks) :
    ∀ c ∈ chunks, ValidUtf8 c := by
  obtain ⟨w, hloop, hw⟩ := Except.bind_eq_ok_iff.mp h
  obtain rfl := Except.ok.inj hw
  obtain ⟨hdocs, hcurrent⟩ :=
    mergeLoop_valid hsep (w := ⟨[], [], 0⟩) rfl (by simp) (by simp) hsplits hloop
  exact valid_completeDocument hsep hdocs hcurrent

/-! ## Single bytes -/

/-- The pieces at the empty separator. -/
def singles (t : Text) : List Text := t.map fun c => [c]

theorem splitText_nil (t : Text) : splitText t [] = singles t := by
  unfold splitText Pieces.split singles
  cases t with
  | nil => rfl
  | cons c cs => simp

theorem join_singles (t : Text) : join [] (singles t) = t := by
  rw [← splitText_nil]
  exact Pieces.join_split [] t

/-- How far the windows of single bytes are apart: a window keeps the overlap, but at most all bytes
but one. -/
def stride (chunkSize chunkOverlap : ℕ) : ℕ := chunkSize - min chunkOverlap (chunkSize - 1)

/-- The `while` loop keeps the last bytes of a full window. -/
theorem slide_singles {current : Text} (hlen : current.length = chunkSize) (hsize : 0 < chunkSize) :
    slide [] chunkSize chunkOverlap List.length 1 (singles current) current.length
        (current.length + 1) =
      .ok (singles (current.drop (stride chunkSize chunkOverlap)),
        (current.drop (stride chunkSize chunkOverlap)).length + 1) := by
  obtain ⟨kept, hkept, hslide⟩ := slide_ok [] chunkSize chunkOverlap 1 (singles current)
  have hfits := hkept.fits
  obtain ⟨dropped, hsplit⟩ := hkept.suffix
  obtain ⟨front, back, rfl, rfl, rfl⟩ := List.append_eq_map_iff.mp hsplit
  have hjoin : ∀ t : Text, join [] (t.map fun c => [c]) = t := join_singles
  have hzero : ∀ p : Prop, [Decidable p] → (if p then ([] : Text).length else 0) = 0 := by
    intro p _
    split_ifs <;> rfl
  unfold Fits at hfits
  rw [join_singles, hjoin, hzero, hzero] at hslide
  rw [hjoin, hzero] at hfits
  -- One byte more would not fit, so the rest is as long as it can be.
  have hback : back.length = min chunkOverlap (chunkSize - 1) := by
    rcases List.eq_nil_or_concat front with rfl | ⟨front, x, rfl⟩
    · simp only [List.nil_append] at hlen
      omega
    · have hsuffix : singles (x :: back) <:+ singles (front.concat x ++ back) :=
        ⟨singles front, by simp [singles]⟩
      have hmore : ¬ Fits [] chunkSize chunkOverlap 1 (singles (x :: back)) := by
        intro hfit
        have hle := (hkept.longest _ hsuffix hfit).length_le
        simp only [singles, List.length_map, List.length_cons] at hle
        omega
      unfold Fits at hmore
      rw [join_singles, hzero, List.length_cons] at hmore
      omega
  have hdrop : (front ++ back).drop (stride chunkSize chunkOverlap) = back := by
    have hfront : front.length = stride chunkSize chunkOverlap := by
      rw [List.length_append] at hlen
      unfold stride
      omega
    rw [← hfront, List.drop_left]
  rw [hdrop]
  exact hslide

/-- The loop of `_merge_splits` over single bytes puts out the windows. -/
theorem mergeLoop_singles (chunkOverlap : ℕ) (hsize : 0 < chunkSize) (rest : Text) {current : Text}
    (docs : List Text) (hlen : current.length ≤ chunkSize) :
    ∃ w, mergeLoop [] chunkSize chunkOverlap List.length (singles rest)
        ⟨docs, singles current, current.length⟩ = .ok w ∧
      completeDocument [] w.docs w.current =
        docs ++ documents (windows chunkSize (stride chunkSize chunkOverlap) (current ++ rest)) := by
  induction rest generalizing current docs with
  | nil =>
    refine ⟨_, rfl, ?_⟩
    rw [List.append_nil, CharCode.windows_of_le hlen, completeDocument_eq, join_singles]
  | cons x rest ih =>
    have hstride : 0 < stride chunkSize chunkOverlap := by
      unfold stride
      omega
    have hconcat : ∀ t : Text, singles t ++ [[x]] = singles (t ++ [x]) := by
      intro t
      simp [singles]
    have hnil : ∀ t : Text, singles t ≠ [] ↔ t ≠ [] := by
      intro t
      simp [singles]
    rcases Nat.lt_or_ge current.length chunkSize with hlt | hge
    · -- The byte fits.
      have hstep : mergeStep [] chunkSize chunkOverlap List.length
          ⟨docs, singles current, current.length⟩ [x] =
            .ok ⟨docs, singles (current ++ [x]), (current ++ [x]).length⟩ := by
        unfold mergeStep
        simp only [List.length_singleton, List.length_nil, ite_self, Nat.add_zero]
        rw [if_neg (by omega), hconcat, List.length_append]
        rfl
      have hnext : (current ++ [x]).length ≤ chunkSize := by
        rw [List.length_append, List.length_singleton]
        omega
      obtain ⟨w, hloop, hw⟩ := ih docs hnext
      refine ⟨w, ?_, by rw [hw, List.append_assoc]; rfl⟩
      rw [singles, List.map_cons, mergeLoop, hstep, Except.ok_bind]
      exact hloop
    · -- The window is full, and it is put out.
      have hfull : current.length = chunkSize := Nat.le_antisymm hlen hge
      have hne : current ≠ [] := List.ne_nil_of_length_pos (by omega)
      have hkept : (current.drop (stride chunkSize chunkOverlap) ++ [x]).length ≤ chunkSize := by
        rw [List.length_append, List.length_drop, List.length_singleton]
        omega
      have hstep : mergeStep [] chunkSize chunkOverlap List.length
          ⟨docs, singles current, current.length⟩ [x] =
            .ok ⟨docs ++ documents [current],
              singles (current.drop (stride chunkSize chunkOverlap) ++ [x]),
              (current.drop (stride chunkSize chunkOverlap) ++ [x]).length⟩ := by
        unfold mergeStep
        simp only [List.length_singleton, List.length_nil, ite_self, Nat.add_zero]
        rw [if_pos ⟨by omega, (hnil current).mpr hne⟩, slide_singles hfull hsize, Except.ok_bind,
          hconcat, completeDocument_eq, join_singles, List.length_append]
        rfl
      obtain ⟨w, hloop, hw⟩ := ih (docs ++ documents [current]) hkept
      refine ⟨w, ?_, ?_⟩
      · rw [singles, List.map_cons, mergeLoop, hstep, Except.ok_bind]
        exact hloop
      · have hwindows : windows chunkSize (stride chunkSize chunkOverlap) (current ++ x :: rest) =
            current :: windows chunkSize (stride chunkSize chunkOverlap)
              (current.drop (stride chunkSize chunkOverlap) ++ [x] ++ rest) := by
          have hle : stride chunkSize chunkOverlap ≤ current.length := by
            unfold stride
            omega
          rw [CharCode.windows_of_lt hstride (by simp; omega), ← hfull, List.take_left, hfull,
            List.drop_append_of_le_length hle, List.append_assoc, List.singleton_append]
        rw [hw, hwindows, List.append_assoc, ← documents_append, List.singleton_append]

/-- Merging single bytes makes windows of them. -/
theorem mergeSplits_singles (chunkOverlap : ℕ) (hsize : 0 < chunkSize) (t : Text) :
    mergeSplits [] chunkSize chunkOverlap List.length (singles t) =
      .ok (documents (windows chunkSize (stride chunkSize chunkOverlap) t)) := by
  have hempty : ([] : Text).length ≤ chunkSize := Nat.zero_le _
  obtain ⟨w, hloop, hw⟩ := mergeLoop_singles chunkOverlap hsize t [] hempty
  have hstart : (⟨[], singles [], ([] : Text).length⟩ : Window) = ⟨[], [], 0⟩ := rfl
  rw [hstart] at hloop
  rw [mergeSplits, hloop, Except.ok_bind, hw]
  rfl

/-- All cuts of the windows of single bytes are where a character begins: the ends of all windows
but the last, and the beginnings of those that follow. -/
def CutsAtCharacters (chunkSize chunkOverlap : ℕ) (piece : Text) : Prop :=
  ∀ k, k * stride chunkSize chunkOverlap + chunkSize < piece.length →
    utf8.AtLead (piece.drop (k * stride chunkSize chunkOverlap + chunkSize)) ∧
      utf8.AtLead (piece.drop ((k + 1) * stride chunkSize chunkOverlap))

/-- The chunks of the single bytes are valid exactly when all cuts are between characters. -/
theorem mergeSplits_singles_valid_iff (hsize : 0 < chunkSize) (htext : ValidUtf8 text)
    {chunks : List Text}
    (h : mergeSplits [] chunkSize chunkOverlap List.length (singles text) = .ok chunks) :
    (∀ c ∈ chunks, ValidUtf8 c) ↔ CutsAtCharacters chunkSize chunkOverlap text := by
  rw [mergeSplits_singles chunkOverlap hsize] at h
  rw [← Except.ok.inj h, valid_documents_iff]
  refine CharCode.valid_windows_iff ?_ ?_ htext
  · unfold stride
    omega
  · unfold stride
    omega

/-! ## The recursive splitter -/

/-- The best separator is one of the separators or the fallback, and those for the next step stand
behind it. -/
theorem pickFrom_mem (text fallback : Text) (separators : List Text) :
    ((pickFrom text fallback separators).1 ∈ separators ∨
      (pickFrom text fallback separators).1 = fallback) ∧
    ∀ s ∈ (pickFrom text fallback separators).2, s ∈ separators := by
  induction separators with
  | nil => exact ⟨.inr rfl, by simp [pickFrom]⟩
  | cons sep separators ih =>
    unfold pickFrom
    split_ifs with hnil hfound
    · exact ⟨.inl (hnil ▸ List.mem_cons_self ..), by simp⟩
    · exact ⟨.inl (List.mem_cons_self ..), fun s hs => List.mem_cons_of_mem sep hs⟩
    · exact ⟨ih.1.imp_left (List.mem_cons_of_mem sep), fun s hs =>
        List.mem_cons_of_mem sep (ih.2 s hs)⟩

/-- The empty separator is the last one that is used. -/
theorem pickFrom_nil {fallback : Text} {separators : List Text}
    (h : (pickFrom text fallback separators).1 = []) :
    (pickFrom text fallback separators).2 = [] := by
  induction separators with
  | nil => rfl
  | cons sep separators ih =>
    unfold pickFrom at h ⊢
    split_ifs at h ⊢ with hnil hfound
    · rfl
    · exact absurd h hnil
    · exact ih h

theorem pickBestSeparator_mem (text : Text) {separators : List Text} (hne : separators ≠ []) :
    (pickBestSeparator text separators).1 ∈ separators ∧
      ∀ s ∈ (pickBestSeparator text separators).2, s ∈ separators := by
  obtain ⟨hbest, hrest⟩ := pickFrom_mem text (separators.getLastD []) separators
  refine ⟨hbest.elim id fun hlast => ?_, hrest⟩
  have hmem : separators.getLastD [] ∈ separators := by
    rw [List.getLastD_eq_getLast?, List.getLast?_eq_some_getLast hne]
    exact List.getLast_mem hne
  unfold pickBestSeparator
  rw [hlast]
  exact hmem

/-- The parts of a text that the recursive splitter cuts into single bytes. -/
inductive CutsBytes (chunkSize : ℕ) : List Text → Text → Text → Prop
  | here {separators : List Text} {text : Text} :
      (pickBestSeparator text separators).1 = [] → CutsBytes chunkSize separators text text
  | inside {separators : List Text} {text s piece : Text} :
      s ∈ splitText text (pickBestSeparator text separators).1 → chunkSize ≤ s.length →
      (pickBestSeparator text separators).2 ≠ [] →
      CutsBytes chunkSize (pickBestSeparator text separators).2 s piece →
      CutsBytes chunkSize separators text piece

/-- All chunks that were returned are valid. -/
def ReturnsValid (result : Except Fault (List Text)) : Prop :=
  ∀ chunks, result = .ok chunks → ∀ c ∈ chunks, ValidUtf8 c

theorem returnsValid_ok {chunks : List Text} :
    ReturnsValid (.ok chunks) ↔ ∀ c ∈ chunks, ValidUtf8 c := by
  constructor
  · exact fun h => h chunks rfl
  · rintro h _ ⟨⟩
    exact h

/-- Merging valid good splits adds valid chunks to those that are there. -/
theorem mergeSplitsAndPut_valid (chunkSize chunkOverlap : ℕ) (hsep : ValidUtf8 separator)
    (chunks : List Text) {goodSplits : List Text} (hgood : ∀ s ∈ goodSplits, ValidUtf8 s) :
    ∃ merged, mergeSplitsAndPut separator chunkSize chunkOverlap List.length chunks goodSplits =
      .ok (chunks ++ merged) ∧ ∀ c ∈ merged, ValidUtf8 c := by
  unfold mergeSplitsAndPut
  by_cases hne : goodSplits = []
  · exact ⟨[], by rw [if_neg (not_not.mpr hne), List.append_nil]; rfl, by simp⟩
  · obtain ⟨placed, hmerge, -⟩ :=
      mergeSplits_cover separator (fun _ _ _ => False) chunkSize chunkOverlap hne
    rw [if_pos hne, hmerge, Except.ok_bind]
    exact ⟨_, rfl, mergeSplits_valid hsep hgood hmerge⟩

/-- At a separator, the chunks are valid when those are that are made of the splits that are too
big. -/
theorem gather_valid_iff (chunkOverlap : ℕ) (hsep : ValidUtf8 separator)
    {next : Text → Except Fault (List Text)} {splits good : List Text} (final : List Text)
    (hnext : ∀ s, chunkSize ≤ s.length → ∃ chunks, next s = .ok chunks)
    (hsplits : ∀ s ∈ splits, ValidUtf8 s) (hgood : ∀ s ∈ good, ValidUtf8 s) :
    ∃ chunks, gather separator chunkSize chunkOverlap List.length next splits good final =
        .ok chunks ∧
      ((∀ c ∈ chunks, ValidUtf8 c) ↔ (∀ c ∈ final, ValidUtf8 c) ∧
        ∀ s ∈ splits, chunkSize ≤ s.length → ReturnsValid (next s)) := by
  induction splits generalizing good final with
  | nil =>
    obtain ⟨merged, hmerge, hvalid⟩ := mergeSplitsAndPut_valid chunkSize chunkOverlap hsep final hgood
    refine ⟨_, hmerge, ?_⟩
    rw [List.forall_mem_append]
    exact ⟨fun h => ⟨h.1, by simp⟩, fun h => ⟨h.1, hvalid⟩⟩
  | cons s splits ih =>
    have htail : ∀ x ∈ splits, ValidUtf8 x := fun x hx => hsplits x (List.mem_cons_of_mem s hx)
    unfold gather
    by_cases hsmall : s.length < chunkSize
    · rw [if_pos hsmall]
      have hgood' : ∀ x ∈ good ++ [s], ValidUtf8 x := by
        rw [List.forall_mem_append, List.forall_mem_singleton]
        exact ⟨hgood, hsplits s (List.mem_cons_self ..)⟩
      obtain ⟨chunks, hgather, hiff⟩ := ih final htail hgood'
      refine ⟨chunks, hgather, hiff.trans (and_congr_right fun _ => ?_)⟩
      rw [List.forall_mem_cons]
      exact ⟨fun h => ⟨fun hbig => absurd hsmall (not_lt.mpr hbig), h⟩, fun h => h.2⟩
    · obtain ⟨merged, hmerge, hvalid⟩ :=
        mergeSplitsAndPut_valid chunkSize chunkOverlap hsep final hgood
      obtain ⟨inside, hinside⟩ := hnext s (not_lt.mp hsmall)
      have hempty : ∀ x ∈ ([] : List Text), ValidUtf8 x := by simp
      obtain ⟨chunks, hgather, hiff⟩ := ih (final ++ merged ++ inside) htail hempty
      rw [if_neg hsmall, hmerge, Except.ok_bind, hinside, Except.ok_bind]
      refine ⟨chunks, hgather, hiff.trans ?_⟩
      rw [List.forall_mem_append, List.forall_mem_append, List.forall_mem_cons, hinside,
        returnsValid_ok]
      constructor
      · rintro ⟨⟨⟨hfinal, -⟩, hin⟩, hrest⟩
        exact ⟨hfinal, fun _ => hin, hrest⟩
      · rintro ⟨hfinal, hin, hrest⟩
        exact ⟨⟨⟨hfinal, hvalid⟩, hin (not_lt.mp hsmall)⟩, hrest⟩

/-- Splits that are small are merged as they are. -/
theorem gather_small {next : Text → Except Fault (List Text)} {splits : List Text}
    (good final : List Text) (hsmall : ∀ s ∈ splits, s.length < chunkSize) :
    gather separator chunkSize chunkOverlap List.length next splits good final =
      mergeSplitsAndPut separator chunkSize chunkOverlap List.length final (good ++ splits) := by
  induction splits generalizing good with
  | nil => rw [gather, List.append_nil]
  | cons s splits ih =>
    rw [gather, if_pos (hsmall s (List.mem_cons_self ..)),
      ih (good ++ [s]) fun x hx => hsmall x (List.mem_cons_of_mem s hx), List.append_assoc,
      List.singleton_append]

/-- At the empty separator, the chunks are those of the single bytes. -/
theorem gather_singles_valid_iff (hsize : 1 < chunkSize) (htext : ValidUtf8 text)
    (next : Text → Except Fault (List Text)) :
    ReturnsValid (gather [] chunkSize chunkOverlap List.length next (splitText text []) [] []) ↔
      CutsAtCharacters chunkSize chunkOverlap text := by
  have hpos : 0 < chunkSize := lt_trans Nat.zero_lt_one hsize
  have hsmall : ∀ s ∈ singles text, s.length < chunkSize := by
    intro s hs
    obtain ⟨c, -, rfl⟩ := List.mem_map.mp hs
    exact hsize
  rw [splitText_nil, gather_small [] [] hsmall, List.nil_append]
  unfold mergeSplitsAndPut
  cases text with
  | nil =>
    -- The empty text has no chunk, and no cut.
    refine iff_of_true (returnsValid_ok.mpr (by simp)) fun k hk => ?_
    rw [List.length_nil] at hk
    omega
  | cons c cs =>
    have hmerge := mergeSplits_singles chunkOverlap hpos (c :: cs)
    have hne : singles (c :: cs) ≠ [] := List.cons_ne_nil _ _
    rw [if_pos hne, hmerge, Except.ok_bind]
    exact returnsValid_ok.trans (mergeSplits_singles_valid_iff hpos htext hmerge)

/-- The chunks of `_split_text_recursive` are valid exactly when the parts that it cuts into single
bytes are cut between characters, by induction on the number of separators. -/
theorem splitTextRecursive_valid_iff (hsize : 1 < chunkSize) {separators : List Text}
    (hne : separators ≠ []) (hseps : ∀ s ∈ separators, ValidUtf8 s) (htext : ValidUtf8 text) :
    ReturnsValid (splitTextRecursive chunkSize chunkOverlap List.length separators text) ↔
      ∀ piece, CutsBytes chunkSize separators text piece →
        CutsAtCharacters chunkSize chunkOverlap piece := by
  generalize hn : separators.length = n
  induction n using Nat.strong_induction_on generalizing separators text with
  | _ n ih =>
    obtain ⟨hmem, hrest⟩ := pickBestSeparator_mem text hne
    obtain ⟨sep, seps, rfl⟩ := List.exists_cons_of_ne_nil hne
    have hfewer : (pickBestSeparator text (sep :: seps)).2.length < n := by
      rw [← hn]
      exact pickFrom_length text _ sep seps
    rw [splitTextRecursive]
    by_cases hbytes : (pickBestSeparator text (sep :: seps)).1 = []
    · have hlast : (pickBestSeparator text (sep :: seps)).2 = [] := pickFrom_nil hbytes
      rw [hbytes, gather_singles_valid_iff hsize htext]
      constructor
      · intro h piece hpiece
        cases hpiece with
        | here => exact h
        | inside _ _ hmore => exact absurd hlast hmore
      · exact fun h => h text (.here hbytes)
    · have hsep : ValidUtf8 (pickBestSeparator text (sep :: seps)).1 := hseps _ hmem
      have hpieces : ∀ s ∈ splitText text (pickBestSeparator text (sep :: seps)).1, ValidUtf8 s :=
        CharCode.valid_of_mem_split hbytes hsep htext
      have hnext : ∀ s, chunkSize ≤ s.length → ∃ chunks,
          (if (pickBestSeparator text (sep :: seps)).2 = [] then .ok [s]
            else splitTextRecursive chunkSize chunkOverlap List.length
              (pickBestSeparator text (sep :: seps)).2 s) = Except.ok chunks := by
        intro s _
        by_cases hnil : (pickBestSeparator text (sep :: seps)).2 = []
        · exact ⟨_, if_pos hnil⟩
        · obtain ⟨placed, hrec, -⟩ :=
            splitTextRecursive_cover chunkOverlap (le_of_lt hsize) hnil s
          exact ⟨_, (if_neg hnil).trans hrec⟩
      have hempty : ∀ x ∈ ([] : List Text), ValidUtf8 x := by simp
      obtain ⟨chunks, hgather, hiff⟩ := gather_valid_iff chunkOverlap hsep [] hnext hpieces hempty
      have hsub : ∀ s ∈ splitText text (pickBestSeparator text (sep :: seps)).1,
          (pickBestSeparator text (sep :: seps)).2 ≠ [] →
          (ReturnsValid (splitTextRecursive chunkSize chunkOverlap List.length
            (pickBestSeparator text (sep :: seps)).2 s) ↔
          ∀ piece, CutsBytes chunkSize (pickBestSeparator text (sep :: seps)).2 s piece →
            CutsAtCharacters chunkSize chunkOverlap piece) := fun s hs hmore =>
        ih _ hfewer hmore (fun x hx => hseps x (hrest x hx)) (hpieces s hs) rfl
      rw [hgather, returnsValid_ok, hiff]
      constructor
      · rintro ⟨-, h⟩ piece hpiece
        cases hpiece with
        | here hnil => exact absurd hnil hbytes
        | @inside _ _ s _ hs hbig hmore hinner =>
          have hvalid := h s hs hbig
          rw [if_neg hmore] at hvalid
          exact (hsub s hs hmore).mp hvalid piece hinner
      · refine fun h => ⟨by simp, fun s hs hbig => ?_⟩
        split_ifs with hmore
        · exact returnsValid_ok.mpr (List.forall_mem_singleton.mpr (hpieces s hs))
        · exact (hsub s hs hmore).mpr fun piece hinner => h piece (.inside hs hbig hmore hinner)

/-! ## Both splitters -/

/-- The chunks of `split_text_by_separators_recursively`. -/
theorem splitTextBySeparatorsRecursively_valid_iff (hsize : 1 < chunkSize)
    (hoverlap : chunkOverlap ≤ chunkSize) {name : String}
    (hname : name = "default" ∨ name = "string") {separators : List Text}
    (hseps : ∀ s ∈ separators, ValidUtf8 s) (htext : ValidUtf8 text) :
    ReturnsValid (splitTextBySeparatorsRecursively text chunkSize chunkOverlap separators name) ↔
      (separators ≠ [] → ∀ piece, CutsBytes chunkSize separators text piece →
        CutsAtCharacters chunkSize chunkOverlap piece) := by
  unfold splitTextBySeparatorsRecursively
  rw [checkChunkOverlap_of_le hoverlap, Except.ok_bind, lengthFunction_eq hname, Except.ok_bind]
  by_cases hne : separators = []
  · -- The read behind the end of the list returns no chunks.
    subst hne
    rw [splitTextRecursive]
    exact iff_of_true (by rintro _ ⟨⟩) fun h => absurd rfl h
  · rw [splitTextRecursive_valid_iff hsize hne hseps htext]
    exact ⟨fun h _ => h, fun h => h hne⟩

/-- The chunks of `split_text_by_separator`. -/
theorem splitTextBySeparator_valid_iff (hsize : 1 < chunkSize)
    (hoverlap : chunkOverlap ≤ chunkSize) {name : String}
    (hname : name = "default" ∨ name = "string") (hsep : ValidUtf8 separator)
    (htext : ValidUtf8 text) :
    ReturnsValid (splitTextBySeparator text chunkSize chunkOverlap separator name) ↔
      (separator = [] → CutsAtCharacters chunkSize chunkOverlap text) := by
  have hpos : 0 < chunkSize := lt_trans Nat.zero_lt_one hsize
  unfold splitTextBySeparator
  rw [checkChunkOverlap_of_le hoverlap, Except.ok_bind, lengthFunction_eq hname, Except.ok_bind]
  by_cases hnil : separator = []
  · subst hnil
    have hmerge := mergeSplits_singles chunkOverlap hpos text
    rw [splitText_nil]
    constructor
    · exact fun h _ => (mergeSplits_singles_valid_iff hpos htext hmerge).mp (h _ hmerge)
    · intro h chunks hchunks
      exact (mergeSplits_singles_valid_iff hpos htext hchunks).mpr (h rfl)
  · refine iff_of_true (fun chunks hchunks => ?_) fun h => absurd h hnil
    exact mergeSplits_valid hsep (CharCode.valid_of_mem_split hnil hsep htext) hchunks

/-! ## The operators -/

/-- An operator returned the string among its chunks. -/
def ReturnsChunk (result : Except Fault (Except ErrorOutput Value)) (chunk : String) : Prop :=
  ∃ m vs, result = .ok (.ok (.map m)) ∧ m.lookup "chunks" = some (.array vs) ∧ .string chunk ∈ vs

theorem returnsChunk_chunksOutput {chunks : List Text} {chunk : String} :
    ReturnsChunk (.ok (.ok (chunksOutput chunks))) chunk ↔ chunk ∈ chunks.map ofBytes := by
  have hstring : ∀ vs : List Text, Value.string chunk ∈ vs.map (fun c => .string (ofBytes c)) ↔
      chunk ∈ vs.map ofBytes := by
    intro vs
    simp [eq_comm]
  constructor
  · rintro ⟨m, vs, hm, hvs, hmem⟩
    obtain rfl : _ = m := Value.map.inj (Except.ok.inj (Except.ok.inj hm))
    obtain rfl : _ = vs := Value.array.inj (Option.some.inj hvs)
    exact (hstring chunks).mp hmem
  · exact fun h => ⟨_, _, rfl, rfl, (hstring chunks).mpr h⟩

/-- The strings that an operator returns are valid when the chunks of its splitter are. -/
theorem returnsChunk_valid_iff (result : Except Fault (List Text)) :
    (∀ chunk, ReturnsChunk (do return .ok (chunksOutput (← result))) chunk →
      ValidUtf8 (bytesOf chunk)) ↔ ReturnsValid result := by
  cases result with
  | error fault =>
    refine iff_of_true (fun chunk h => ?_) (by rintro _ ⟨⟩)
    obtain ⟨m, vs, hm, -⟩ := h
    cases hm
  | ok chunks =>
    rw [returnsValid_ok]
    constructor
    · intro h c hc
      have hmem : ofBytes c ∈ chunks.map ofBytes := List.mem_map_of_mem hc
      exact bytesOf_ofBytes c ▸ h _ (returnsChunk_chunksOutput.mpr hmem)
    · intro h chunk hchunk
      obtain ⟨c, hc, rfl⟩ := List.mem_map.mp (returnsChunk_chunksOutput.mp hchunk)
      rw [bytesOf_ofBytes]
      exact h c hc

/-- For a valid text and valid separators, a chunk size of at least four, and an overlap that is not
larger, all strings that an operator returns are valid UTF-8 exactly when the parts of the text that
it cuts into single bytes are cut between characters. -/
theorem chunks_valid_iff (getType : Value → String) (inputs : Value) :
    (∀ a, parseArguments getType (parseSeparators getType) inputs = .ok a → ValidUtf8 a.text →
      (∀ s ∈ a.separators, ValidUtf8 s) → 4 ≤ a.chunkSize → a.chunkOverlap ≤ a.chunkSize →
      ((∀ chunk, ReturnsChunk (splitTextBySeparatorsRecursivelyOp getType inputs) chunk →
          ValidUtf8 (bytesOf chunk)) ↔
        (a.separators ≠ [] → ∀ piece, CutsBytes a.chunkSize a.separators a.text piece →
          CutsAtCharacters a.chunkSize a.chunkOverlap piece))) ∧
    (∀ a, parseArguments getType (parseSeparator getType) inputs = .ok a → ValidUtf8 a.text →
      ValidUtf8 a.separators → 4 ≤ a.chunkSize → a.chunkOverlap ≤ a.chunkSize →
      ((∀ chunk, ReturnsChunk (splitTextBySeparatorOp getType inputs) chunk →
          ValidUtf8 (bytesOf chunk)) ↔
        (a.separators = [] → CutsAtCharacters a.chunkSize a.chunkOverlap a.text))) := by
  constructor
  · intro a ha htext hseps hsize hoverlap
    unfold splitTextBySeparatorsRecursivelyOp
    rw [ha]
    exact (returnsChunk_valid_iff _).trans (splitTextBySeparatorsRecursively_valid_iff (by omega)
      hoverlap (parseArguments_ok ha).2.2 hseps htext)
  · intro a ha htext hsep hsize hoverlap
    unfold splitTextBySeparatorOp
    rw [ha]
    exact (returnsChunk_valid_iff _).trans (splitTextBySeparator_valid_iff (by omega) hoverlap
      (parseArguments_ok ha).2.2 hsep htext)

/-- The inputs of an operator for a text, in chunks of at most four bytes that overlap by one. -/
def inputsOf (text : Text) : Value :=
  .map [("text", .string (ofBytes text)), ("chunk_size", .uint 4), ("chunk_overlap", .uint 1)]

/-- The text `ééé`. -/
def accents : Text := [0xC3, 0xA9, 0xC3, 0xA9, 0xC3, 0xA9]

theorem valid_accents : ValidUtf8 accents := by
  have hencode : utf8.encode 'é' = [0xC3, 0xA9] := by decide
  have hone : ValidUtf8 [0xC3, 0xA9] := hencode ▸ CharCode.valid_encode 'é'
  exact CharCode.Valid.append hone (CharCode.Valid.append hone hone)

/-- `split_text` returns `éé` and the second half of an `é` with another `é`. -/
theorem split_accents :
    splitTextBySeparatorsRecursivelyOp (fun _ => "") (inputsOf accents) =
      .ok (.ok (chunksOutput [[0xC3, 0xA9, 0xC3, 0xA9], [0xA9, 0xC3, 0xA9]])) := by
  have hparse : parseArguments (fun _ => "") (parseSeparators fun _ => "") (inputsOf accents) =
      .ok ⟨accents, 4, 1, defaultSeparators, "default"⟩ := rfl
  have hsplit : splitTextBySeparatorsRecursively accents 4 1 defaultSeparators "default" =
      .ok [[0xC3, 0xA9, 0xC3, 0xA9], [0xA9, 0xC3, 0xA9]] := by
    have hrec : splitTextRecursive 4 1 List.length [[0x0A, 0x0A], [0x0A], [0x20], []] accents =
        .ok [[0xC3, 0xA9, 0xC3, 0xA9], [0xA9, 0xC3, 0xA9]] := by
      rw [splitTextRecursive]
      rfl
    exact hrec
  unfold splitTextBySeparatorsRecursivelyOp
  rw [hparse]
  dsimp only
  rw [hsplit]
  rfl

/-- The text is valid and so are the default separators, the overlap is smaller than the size, and a
chunk that `split_text` returns is not valid. -/
theorem accents_cut :
    parseArguments (fun _ => "") (parseSeparators fun _ => "") (inputsOf accents) =
        .ok ⟨accents, 4, 1, defaultSeparators, "default"⟩ ∧
      ValidUtf8 accents ∧ (∀ s ∈ defaultSeparators, ValidUtf8 s) ∧
      ∃ chunk, ReturnsChunk
          (splitTextBySeparatorsRecursivelyOp (fun _ => "") (inputsOf accents)) chunk ∧
        ¬ ValidUtf8 (bytesOf chunk) := by
  refine ⟨rfl, valid_accents, valid_defaultSeparators, ofBytes [0xA9, 0xC3, 0xA9], ?_, fun h => ?_⟩
  · rw [split_accents]
    exact returnsChunk_chunksOutput.mpr (List.mem_cons_of_mem _ (List.mem_cons_self ..))
  · rw [bytesOf_ofBytes] at h
    have hinner : ¬ UInt8.IsUTF8FirstByte 0xA9 := by decide
    exact hinner (h.atLead 0xA9 rfl)

/-- Both operators on a text of four bytes, which is a single window. -/
theorem chunks_valid_iff_abcd :
    ((∀ chunk, ReturnsChunk
          (splitTextBySeparatorsRecursivelyOp (fun _ => "") (inputsOf [0x61, 0x62, 0x63, 0x64]))
          chunk → ValidUtf8 (bytesOf chunk)) ↔
        (defaultSeparators ≠ [] →
          ∀ piece, CutsBytes 4 defaultSeparators [0x61, 0x62, 0x63, 0x64] piece →
            CutsAtCharacters 4 1 piece)) ∧
      ((∀ chunk, ReturnsChunk
          (splitTextBySeparatorOp (fun _ => "") (inputsOf [0x61, 0x62, 0x63, 0x64])) chunk →
          ValidUtf8 (bytesOf chunk)) ↔
        (bytesOf "\n\n" = [] → CutsAtCharacters 4 1 [0x61, 0x62, 0x63, 0x64])) := by
  have hone : ∀ c : UInt8, c < 0x80 → ValidUtf8 [c] := fun _ => valid_of_lt
  have htext : ValidUtf8 [0x61, 0x62, 0x63, 0x64] :=
    CharCode.Valid.append (hone 0x61 (by decide)) (CharCode.Valid.append (hone 0x62 (by decide))
      (CharCode.Valid.append (hone 0x63 (by decide)) (hone 0x64 (by decide))))
  obtain ⟨hrec, hsep⟩ := chunks_valid_iff (fun _ => "") (inputsOf [0x61, 0x62, 0x63, 0x64])
  exact ⟨hrec ⟨[0x61, 0x62, 0x63, 0x64], 4, 1, defaultSeparators, "default"⟩ rfl htext
      valid_defaultSeparators (by decide) (by decide),
    hsep ⟨[0x61, 0x62, 0x63, 0x64], 4, 1, bytesOf "\n\n", "default"⟩ rfl htext
      (valid_defaultSeparators _ (List.mem_cons_self ..)) (by decide) (by decide)⟩

end SplitText

end Ailoy
