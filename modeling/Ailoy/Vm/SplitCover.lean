import Ailoy.Vm.SplitText

/-!
# What the text splitters keep

No text is lost or invented: the chunks are parts of the text in order, and what lies in none of
them is blank or a separator at which the text was cut. `_merge_splits` drops fragments from the
front of its window only, and only after it has put the window out, so behind each step all bytes
before the window are accounted for (`Progress`). A chunk begins at the first byte behind the start
of its window that is not blank, so the chunks are in order as the windows are. The recursive
splitter is by induction on the list of separators.
-/

namespace Ailoy

namespace SplitText

open Pieces (Occurs Placed shift lead Accounted Cover CutIn)

/-! ## The window -/

/-- The length of a joined window is the sum that `_merge_splits` keeps. -/
theorem length_join_cons (separator first : Text) (current : List Text) :
    (join separator (first :: current)).length =
      (join separator current).length +
        (first.length + if current ≠ [] then separator.length else 0) := by
  unfold join
  by_cases hc : current = []
  · subst hc
    simp [Pieces.join]
  · rw [if_pos hc, Pieces.join, Pieces.flatMap_eq hc, List.length_append, List.length_append]
    omega

theorem length_join_concat (separator s : Text) (current : List Text) :
    (join separator (current ++ [s])).length =
      (join separator current).length + s.length +
        (if current ≠ [] then separator.length else 0) := by
  unfold join
  by_cases hc : current = []
  · subst hc
    simp [Pieces.join]
  · rw [if_pos hc, Pieces.join_append hc (List.cons_ne_nil _ _), Pieces.join_singleton,
      List.length_append, List.length_append]
    omega

/-- The `while` loop stops at these fragments: they are a short enough overlap, and they leave room
for the next fragment. -/
def Fits (separator : Text) (chunkSize chunkOverlap newLen : ℕ) (kept : List Text) : Prop :=
  (join separator kept).length ≤ chunkOverlap ∧
    ((join separator kept).length + newLen + (if kept ≠ [] then separator.length else 0) ≤
      chunkSize ∨ (join separator kept).length = 0)

/-- One round of the `while` loop. Its subtraction does not wrap, and its total stays the length of
the joined window. -/
theorem slide_cons (separator : Text) (chunkSize chunkOverlap newLen : ℕ) (first : Text)
    (current : List Text) (h : ¬ Fits separator chunkSize chunkOverlap newLen (first :: current)) :
    slide separator chunkSize chunkOverlap List.length newLen (first :: current)
        (join separator (first :: current)).length
        ((join separator (first :: current)).length + newLen +
          if first :: current ≠ [] then separator.length else 0) =
      slide separator chunkSize chunkOverlap List.length newLen current
        (join separator current).length
        ((join separator current).length + newLen +
          if current ≠ [] then separator.length else 0) := by
  -- The total without the first fragment is that of the rest.
  have htotal := length_join_cons separator first current
  have hsub : sizeSub (join separator (first :: current)).length
      (first.length + if current ≠ [] then separator.length else 0) =
      (join separator current).length := by
    unfold sizeSub
    rw [if_pos (by omega)]
    omega
  unfold Fits at h
  rw [slide, if_pos (by omega)]
  dsimp only
  rw [hsub]

/-- What the `while` loop carries from a window into the next one: its longest suffix that fits. -/
structure Carried (separator : Text) (chunkSize chunkOverlap newLen : ℕ) (window kept : List Text) :
    Prop where
  suffix : kept <:+ window
  fits : Fits separator chunkSize chunkOverlap newLen kept
  longest : ∀ other, other <:+ window → Fits separator chunkSize chunkOverlap newLen other →
    other <:+ kept

/-- The `while` loop drops fragments in front of the window until what is left fits, and no more of
them. It ends with the total of the next window. -/
theorem slide_ok (separator : Text) (chunkSize chunkOverlap newLen : ℕ) (current : List Text) :
    ∃ kept, Carried separator chunkSize chunkOverlap newLen current kept ∧
      slide separator chunkSize chunkOverlap List.length newLen current
          (join separator current).length
          ((join separator current).length + newLen +
            if current ≠ [] then separator.length else 0) =
        .ok (kept, (join separator kept).length + newLen +
          if kept ≠ [] then separator.length else 0) := by
  induction current with
  | nil =>
    have hzero : (join separator []).length = 0 := rfl
    refine ⟨[], ⟨List.suffix_refl _, ⟨by omega, .inr hzero⟩, fun other hother _ => hother⟩, ?_⟩
    unfold slide
    rw [hzero, if_neg (by omega)]
  | cons first current ih =>
    by_cases hfits : Fits separator chunkSize chunkOverlap newLen (first :: current)
    · refine ⟨first :: current, ⟨List.suffix_refl _, hfits, fun other hother _ => hother⟩, ?_⟩
      unfold Fits at hfits
      rw [slide, if_neg (by omega)]
    · obtain ⟨kept, hkept, hslide⟩ := ih
      refine ⟨kept, ⟨hkept.suffix.trans (List.suffix_cons first current), hkept.fits,
        fun other hother hfit => ?_⟩, ?_⟩
      · rcases List.suffix_cons_iff.mp hother with rfl | hother
        · exact absurd hfit hfits
        · exact hkept.longest other hother hfit
      · rw [slide_cons _ _ _ _ _ _ hfits, hslide]

/-- What an iteration makes of a window: it takes the next fragment, if there is room or nothing to
put out, or else it puts the window out and carries the end of it over. -/
inductive Merged (separator : Text) (chunkSize chunkOverlap : ℕ) (s : Text) (w : Window) :
    Window → Prop
  | grow (room : w.current ≠ [] → (join separator (w.current ++ [s])).length ≤ chunkSize) :
      Merged separator chunkSize chunkOverlap s w
        ⟨w.docs, w.current ++ [s], (join separator (w.current ++ [s])).length⟩
  | complete {kept : List Text} (nonempty : w.current ≠ [])
      (full : chunkSize < (join separator (w.current ++ [s])).length)
      (carried : Carried separator chunkSize chunkOverlap s.length w.current kept) :
      Merged separator chunkSize chunkOverlap s w
        ⟨completeDocument separator w.docs w.current, kept ++ [s],
          (join separator (kept ++ [s])).length⟩

/-- One iteration, for a window whose total is right. -/
theorem mergeStep_ok (separator : Text) (chunkSize chunkOverlap : ℕ) (s : Text) {w : Window}
    (h : w.total = (join separator w.current).length) :
    ∃ w', mergeStep separator chunkSize chunkOverlap List.length w s = .ok w' ∧
      Merged separator chunkSize chunkOverlap s w w' := by
  have hlen := length_join_concat separator s w.current
  unfold mergeStep
  dsimp only
  rw [h, ← hlen]
  by_cases hfull : (join separator (w.current ++ [s])).length > chunkSize ∧ w.current ≠ []
  · obtain ⟨kept, hcarried, hslide⟩ :=
      slide_ok separator chunkSize chunkOverlap s.length w.current
    rw [if_pos hfull, hlen, hslide, Except.ok_bind, ← length_join_concat]
    exact ⟨_, rfl, .complete hfull.2 hfull.1 hcarried⟩
  · rw [if_neg hfull]
    exact ⟨_, rfl, .grow fun hne => not_lt.mp fun hlt => hfull ⟨hlt, hne⟩⟩

namespace Merged

variable {separator s : Text} {chunkSize chunkOverlap : ℕ} {w w' : Window}

/-- The total stays the length of the joined window. -/
theorem total (h : Merged separator chunkSize chunkOverlap s w w') :
    w'.total = (join separator w'.current).length := by
  cases h <;> rfl

/-- The next fragment stands behind the end of the window before. -/
theorem current (h : Merged separator chunkSize chunkOverlap s w w') :
    ∃ kept, kept <:+ w.current ∧ w'.current = kept ++ [s] := by
  cases h with
  | grow _ => exact ⟨w.current, List.suffix_refl _, rfl⟩
  | complete _ _ hcarried => exact ⟨_, hcarried.suffix, rfl⟩

end Merged

/-! ## What is put out -/

/-- The chunks that `_merge_splits` has put out, when `dropped` are the fragments in front of the
window: they occur in the joined text in order, they begin at the first byte behind some earlier
window's start that is not blank, and all bytes before `bound` are accounted for. -/
structure Progress (separator : Text) (inner : Text → ℕ → Text → Prop) (pieces dropped : List Text)
    (bound : ℕ) (docs : List Text) (placed : List (Placed UInt8)) : Prop where
  docs : docs = placed.map Prod.snd
  nonempty : ∀ p ∈ placed, p.2 ≠ []
  occurs : ∀ p ∈ placed, Occurs (join separator pieces) p.2 p.1
  ordered : placed.Pairwise fun p q => p.1 ≤ q.1
  blank : ∀ p ∈ placed, ∀ pos c, (lead separator dropped).length ≤ pos → pos < p.1 →
    (join separator pieces)[pos]? = some c → isspace c = true
  covered : ∀ pos c, pos < bound → (join separator pieces)[pos]? = some c →
    Accounted isspace (CutIn separator inner pieces) placed pos c

variable {separator : Text} {inner : Text → ℕ → Text → Prop}
  {pieces dropped current rest docs : List Text} {placed : List (Placed UInt8)} {bound : ℕ}

/-- After the window is put out, all bytes up to its end are accounted for. -/
theorem Progress.complete (hpieces : pieces = dropped ++ (current ++ rest)) (hcurrent : current ≠ [])
    (h : Progress separator inner pieces dropped (lead separator dropped).length docs placed) :
    ∃ placed', Progress separator inner pieces dropped
      ((lead separator dropped).length + (join separator current).length)
      (completeDocument separator docs current) placed' := by
  have hwindow : Occurs (join separator pieces) (join separator current)
      (lead separator dropped).length := by
    rw [hpieces]
    exact Pieces.occurs_join dropped rest hcurrent
  obtain ⟨front, back, hsplit, hfront, hback⟩ :=
    Pieces.trim_split isspace (join separator current)
  have hbytes : ∀ i, i < (join separator current).length →
      (join separator pieces)[(lead separator dropped).length + i]? =
        (front ++ trim (join separator current) ++ back)[i]? := by
    intro i hi
    rw [hwindow.getElem? hi]
    exact congrArg (·[i]?) hsplit
  have hlen : (join separator current).length =
      front.length + (trim (join separator current)).length + back.length := by
    have := congrArg List.length hsplit
    rw [List.length_append, List.length_append] at this
    exact this
  -- A byte of the window outside the trimmed document is blank.
  have hends : ∀ i c, i < (join separator current).length →
      (join separator pieces)[(lead separator dropped).length + i]? = some c →
      (i < front.length ∨ front.length + (trim (join separator current)).length ≤ i) →
      isspace c = true := by
    intro i c hi hc hout
    rw [hbytes i hi] at hc
    rcases hout with hlow | hhigh
    · rw [List.append_assoc, List.getElem?_append_left hlow] at hc
      exact hfront c (List.mem_of_getElem? hc)
    · rw [List.getElem?_append_right (by rw [List.length_append]; exact hhigh)] at hc
      exact hback c (List.mem_of_getElem? hc)
  unfold completeDocument
  by_cases hdoc : trim (join separator current) = []
  · -- The window is blank, and no document is made of it.
    rw [hdoc]
    refine ⟨placed, h.docs, h.nonempty, h.occurs, h.ordered, h.blank, fun pos c hpos hc => ?_⟩
    by_cases hold : pos < (lead separator dropped).length
    · exact h.covered pos c hold hc
    · obtain ⟨i, rfl⟩ := Nat.exists_eq_add_of_le (not_lt.mp hold)
      refine .inr (.inl (hends i c (by omega) hc ?_))
      rw [hdoc, List.length_nil]
      omega
  · -- The new chunk stands in the window, behind the blanks in its front.
    have hstart : Occurs (join separator pieces) (trim (join separator current))
        ((lead separator dropped).length + front.length) :=
      hwindow.trans ⟨front, back, hsplit, rfl⟩
    dsimp only
    rw [if_pos hdoc]
    refine ⟨placed ++ [((lead separator dropped).length + front.length,
      trim (join separator current))], ?_, ?_, ?_, ?_, ?_, ?_⟩
    · rw [List.map_append, h.docs]
      rfl
    · intro p hp
      rcases List.mem_append.mp hp with hp | hp
      · exact h.nonempty p hp
      · rw [List.mem_singleton.mp hp]
        exact hdoc
    · intro p hp
      rcases List.mem_append.mp hp with hp | hp
      · exact h.occurs p hp
      · rw [List.mem_singleton.mp hp]
        exact hstart
    · rw [List.pairwise_append]
      refine ⟨h.ordered, List.pairwise_singleton _ _, fun p hp q hq => ?_⟩
      rw [List.mem_singleton.mp hq]
      by_contra hlt
      -- The new chunk would begin with a blank.
      obtain ⟨c, cs, hcs⟩ := List.exists_cons_of_ne_nil hdoc
      have hpos : 0 < (trim (join separator current)).length := List.length_pos_iff.mpr hdoc
      have hc := hstart.getElem? hpos
      rw [hcs, Nat.add_zero] at hc
      have hspace := h.blank p hp _ c (Nat.le_add_right _ _) (not_le.mp hlt) hc
      have hhead := Pieces.head_trim hcs
      rw [hspace] at hhead
      cases hhead
    · intro p hp pos c hlow hhigh hc
      rcases List.mem_append.mp hp with hp | hp
      · exact h.blank p hp pos c hlow hhigh hc
      · rw [List.mem_singleton.mp hp] at hhigh
        obtain ⟨i, rfl⟩ := Nat.exists_eq_add_of_le hlow
        have hi : i < front.length := Nat.lt_of_add_lt_add_left hhigh
        exact hends i c (by omega) hc (.inl hi)
    · intro pos c hpos hc
      by_cases hold : pos < (lead separator dropped).length
      · exact (h.covered pos c hold hc).mono (fun _ _ => id) fun p hp => List.mem_append_left _ hp
      · obtain ⟨i, rfl⟩ := Nat.exists_eq_add_of_le (not_lt.mp hold)
        -- A byte of the window is in the new chunk, or it was trimmed.
        by_cases hin : front.length ≤ i ∧ i < front.length + (trim (join separator current)).length
        · refine .inl ⟨_, List.mem_append_right _ (List.mem_singleton_self _), ?_, ?_⟩
          · exact Nat.add_le_add_left hin.1 _
          · show (lead separator dropped).length + i < (lead separator dropped).length +
              front.length + (trim (join separator current)).length
            omega
        · exact .inr (.inl (hends i c (by omega) hc (by omega)))

/-- Fragments that are accounted for may be dropped. -/
theorem Progress.drop {kept : List Text} (hpieces : pieces = dropped ++ (current ++ rest))
    {gone : List Text} (hsplit : current = gone ++ kept) (hcurrent : current ≠ []) (hrest : rest ≠ [])
    (h : Progress separator inner pieces dropped
      ((lead separator dropped).length + (join separator current).length) docs placed) :
    Progress separator inner pieces (dropped ++ gone) (lead separator (dropped ++ gone)).length docs
      placed := by
  have hlead : (lead separator (dropped ++ gone)).length =
      (lead separator dropped).length + (lead separator gone).length := by
    rw [Pieces.lead_append, List.length_append]
  refine ⟨h.docs, h.nonempty, h.occurs, h.ordered, fun p hp pos c hlow => ?_,
    fun pos c hpos hc => ?_⟩
  · exact h.blank p hp pos c (by omega)
  · by_cases hin : pos < (lead separator dropped).length + (join separator current).length
    · exact h.covered pos c hin hc
    · -- Only the separator behind a window that is dropped as a whole lies further.
      by_cases hkept : kept = []
      · subst hkept
        rw [List.append_nil] at hsplit
        subst hsplit
        have hcut : CutIn separator inner pieces (join separator (dropped ++ current)).length
            separator := .between (by rw [hpieces, List.append_assoc]) (by simp [hcurrent]) hrest
        have hjoin : (join separator (dropped ++ current)).length =
            (lead separator dropped).length + (join separator current).length := by
          unfold join
          rw [Pieces.join_append_lead hcurrent, List.length_append]
        have hall : (lead separator current).length =
            (join separator current).length + separator.length := by
          unfold join
          rw [Pieces.lead_eq hcurrent, List.length_append]
        exact .inr (.inr ⟨_, separator, hcut, by omega, by omega⟩)
      · have hle : (join separator current).length =
            (lead separator gone).length + (join separator kept).length := by
          unfold join
          rw [hsplit, Pieces.join_append_lead hkept, List.length_append]
        omega

/-- The loop of `_merge_splits` ends, and all bytes in front of its last window are accounted for.
-/
theorem mergeLoop_progress (chunkSize chunkOverlap : ℕ) {splits : List Text} {w : Window}
    (hpieces : pieces = dropped ++ (w.current ++ splits)) (hne : w.current ≠ [] ∨ splits ≠ [])
    (htotal : w.total = (join separator w.current).length)
    (h : Progress separator inner pieces dropped (lead separator dropped).length w.docs placed) :
    ∃ w' dropped' placed', mergeLoop separator chunkSize chunkOverlap List.length splits w = .ok w' ∧
      pieces = dropped' ++ w'.current ∧ w'.current ≠ [] ∧
      Progress separator inner pieces dropped' (lead separator dropped').length w'.docs placed' := by
  induction splits generalizing w dropped placed with
  | nil =>
    rw [List.append_nil] at hpieces
    exact ⟨w, dropped, placed, rfl, hpieces, hne.resolve_right (fun h => h rfl), h⟩
  | cons s splits ih =>
    obtain ⟨w₁, hstep, hmerged⟩ := mergeStep_ok separator chunkSize chunkOverlap s htotal
    -- What is not carried over has been put out.
    have hstate : ∃ gone placed₁, pieces = (dropped ++ gone) ++ (w₁.current ++ splits) ∧
        Progress separator inner pieces (dropped ++ gone) (lead separator (dropped ++ gone)).length
          w₁.docs placed₁ := by
      cases hmerged with
      | grow _ =>
        refine ⟨[], placed, ?_, by rw [List.append_nil]; exact h⟩
        rw [hpieces]
        simp
      | complete hcurrent _ hcarried =>
        obtain ⟨gone, hsplit⟩ := hcarried.suffix
        obtain ⟨placed₁, hcomplete⟩ := h.complete hpieces hcurrent
        refine ⟨gone, placed₁, ?_,
          hcomplete.drop hpieces hsplit.symm hcurrent (List.cons_ne_nil _ _)⟩
        rw [hpieces, ← hsplit]
        simp
    obtain ⟨gone, placed₁, hpieces₁, hprogress⟩ := hstate
    obtain ⟨kept, -, hcurrent₁⟩ := hmerged.current
    rw [mergeLoop, hstep, Except.ok_bind]
    exact ih hpieces₁ (.inl (by rw [hcurrent₁]; simp)) hmerged.total hprogress

/-- `_merge_splits` returns chunks that cover the joined fragments. -/
theorem mergeSplits_cover (separator : Text) (inner : Text → ℕ → Text → Prop)
    (chunkSize chunkOverlap : ℕ) {pieces : List Text} (hne : pieces ≠ []) :
    ∃ placed, mergeSplits separator chunkSize chunkOverlap List.length pieces =
        .ok (placed.map Prod.snd) ∧
      Cover isspace (join separator pieces) (CutIn separator inner pieces) placed := by
  have h₀ : Progress separator inner pieces [] (lead separator []).length [] [] :=
    ⟨rfl, by simp, by simp, List.Pairwise.nil, by simp, by simp [lead]⟩
  have hstart : pieces = [] ++ ((⟨[], [], 0⟩ : Window).current ++ pieces) := rfl
  obtain ⟨w, dropped, placed, hloop, hpieces, hcurrent, h⟩ :=
    mergeLoop_progress chunkSize chunkOverlap hstart (.inr hne) rfl h₀
  have hpieces' : pieces = dropped ++ (w.current ++ []) := by rw [List.append_nil, hpieces]
  obtain ⟨placed', h'⟩ := h.complete hpieces' hcurrent
  refine ⟨placed', ?_, h'.nonempty, h'.occurs, h'.ordered, fun pos c hc => ?_⟩
  · rw [mergeSplits, hloop, Except.ok_bind, ← h'.docs]
    rfl
  · obtain ⟨hpos, -⟩ := List.getElem?_eq_some_iff.mp hc
    refine h'.covered pos c ?_ hc
    have hlen : (join separator pieces).length =
        (lead separator dropped).length + (join separator w.current).length := by
      unfold join
      rw [hpieces, Pieces.join_append_lead hcurrent, List.length_append]
    omega

theorem checkChunkOverlap_of_le {chunkSize chunkOverlap : ℕ} (h : chunkOverlap ≤ chunkSize) :
    checkChunkOverlap chunkSize chunkOverlap = .ok () := by
  unfold checkChunkOverlap
  rw [if_neg (by omega)]

/-- Both names of a length function mean the length in bytes. -/
theorem lengthFunction_eq {name : String} (h : name = "default" ∨ name = "string") :
    lengthFunction name = .ok List.length := by
  unfold lengthFunction
  rw [if_pos h]

theorem splitTextBySeparator_cover (inner : Text → ℕ → Text → Prop) (text separator : Text)
    {chunkSize chunkOverlap : ℕ} {name : String} (hoverlap : chunkOverlap ≤ chunkSize)
    (hname : name = "default" ∨ name = "string") :
    ∃ placed, splitTextBySeparator text chunkSize chunkOverlap separator name =
        .ok (placed.map Prod.snd) ∧
      Cover isspace text (CutIn separator inner (splitText text separator)) placed := by
  have hjoin : join separator (splitText text separator) = text := Pieces.join_split separator text
  unfold splitTextBySeparator
  rw [checkChunkOverlap_of_le hoverlap, Except.ok_bind, lengthFunction_eq hname, Except.ok_bind]
  by_cases hne : splitText text separator = []
  · -- Only the empty text has no piece.
    rw [hne] at hjoin ⊢
    rw [← hjoin]
    exact ⟨[], rfl, Pieces.cover_nil⟩
  · obtain ⟨placed, hmerge, hcover⟩ :=
      mergeSplits_cover separator inner chunkSize chunkOverlap hne
    rw [hjoin] at hcover
    exact ⟨placed, hmerge, hcover⟩

/-! ## The recursive splitter -/

section Gather

variable {chunkSize : ℕ}

/-- The good splits are merged behind what is covered already. -/
theorem mergeSplitsAndPut_cover (chunkOverlap : ℕ) {done : List Text}
    (good : List Text)
    (hdone : Cover isspace (join separator done) (CutIn separator inner done) placed) :
    ∃ placed', mergeSplitsAndPut separator chunkSize chunkOverlap List.length
        (placed.map Prod.snd) good = .ok (placed'.map Prod.snd) ∧
      Cover isspace (join separator (done ++ good)) (CutIn separator inner (done ++ good))
        placed' := by
  unfold mergeSplitsAndPut
  by_cases hgood : good = []
  · subst hgood
    rw [List.append_nil]
    exact ⟨placed, rfl, hdone⟩
  · obtain ⟨merged, hmerge, hcover⟩ :=
      mergeSplits_cover separator inner chunkSize chunkOverlap hgood
    refine ⟨_, ?_, hdone.append hcover⟩
    rw [if_pos hgood, hmerge, Except.ok_bind, List.map_append, Pieces.map_snd_shift]
    rfl

/-- The loop of `_split_text_recursive` covers the joined splits, when each split that is too big is
covered. `done` are the splits whose chunks are out. -/
theorem gather_cover (separator : Text) (inner : Text → ℕ → Text → Prop) (chunkOverlap : ℕ)
    (next : Text → Except Fault (List Text))
    (hnext : ∀ s, chunkSize ≤ s.length → ∃ placed, next s = .ok (placed.map Prod.snd) ∧
      Cover isspace s (inner s) placed)
    (splits good : List Text) {done : List Text} {placed : List (Placed UInt8)}
    (hdone : Cover isspace (join separator done) (CutIn separator inner done) placed) :
    ∃ placed', gather separator chunkSize chunkOverlap List.length next splits good
        (placed.map Prod.snd) = .ok (placed'.map Prod.snd) ∧
      Cover isspace (join separator (done ++ good ++ splits))
        (CutIn separator inner (done ++ good ++ splits)) placed' := by
  induction splits generalizing good done placed with
  | nil =>
    rw [List.append_nil]
    exact mergeSplitsAndPut_cover chunkOverlap good hdone
  | cons s splits ih =>
    unfold gather
    by_cases hsmall : s.length < chunkSize
    · rw [if_pos hsmall]
      have hassoc : done ++ good ++ s :: splits = done ++ (good ++ [s]) ++ splits := by simp
      rw [hassoc]
      exact ih (good ++ [s]) hdone
    · obtain ⟨merged, hmerge, hcover⟩ :=
        mergeSplitsAndPut_cover chunkOverlap good hdone
      obtain ⟨inside, hinside, hs⟩ := hnext s (not_lt.mp hsmall)
      have hassoc : done ++ good ++ s :: splits = done ++ good ++ [s] ++ [] ++ splits := by simp
      have hout : merged.map Prod.snd ++ inside.map Prod.snd =
          (merged ++ shift (lead separator (done ++ good)).length inside).map Prod.snd := by
        rw [List.map_append, Pieces.map_snd_shift]
      rw [if_neg hsmall, hmerge, Except.ok_bind, hinside, Except.ok_bind, hassoc, hout]
      exact ih [] (hcover.append (Pieces.Cover.single hs))

end Gather

/-- The places at which the recursive splitter cuts the text: between the splits at the best
separator, and inside a split that is too big. -/
inductive SplitAt (chunkSize : ℕ) : List Text → Text → ℕ → Text → Prop
  | between {separators : List Text} {text : Text} {pre post : List Text} :
      splitText text (pickBestSeparator text separators).1 = pre ++ post → pre ≠ [] → post ≠ [] →
      SplitAt chunkSize separators text (join (pickBestSeparator text separators).1 pre).length
        (pickBestSeparator text separators).1
  | inside {separators : List Text} {text s separator : Text} {pre post : List Text} {start : ℕ} :
      splitText text (pickBestSeparator text separators).1 = pre ++ s :: post →
      chunkSize ≤ s.length → (pickBestSeparator text separators).2 ≠ [] →
      SplitAt chunkSize (pickBestSeparator text separators).2 s start separator →
      SplitAt chunkSize separators text
        ((lead (pickBestSeparator text separators).1 pre).length + start) separator

/-- A separator occurs between two runs of pieces. -/
theorem occurs_between {text : Text} {pre post : List Text}
    (h : splitText text separator = pre ++ post) (hpre : pre ≠ []) (hpost : post ≠ []) :
    Occurs text separator (join separator pre).length := by
  have htext : text = join separator (pre ++ post) := by
    rw [← h]
    exact (Pieces.join_split separator text).symm
  refine ⟨join separator pre, join separator post, ?_, rfl⟩
  rw [htext]
  exact Pieces.join_append hpre hpost

/-- A piece occurs behind the lead of those before it. -/
theorem occurs_piece {text s : Text} {pre post : List Text}
    (h : splitText text separator = pre ++ s :: post) :
    Occurs text s (lead separator pre).length := by
  have htext : text = join separator (pre ++ ([s] ++ post)) := by
    rw [List.singleton_append, ← h]
    exact (Pieces.join_split separator text).symm
  have hs := Pieces.occurs_join (d := separator) pre post (List.cons_ne_nil s [])
  rw [Pieces.join_singleton] at hs
  rw [htext]
  exact hs

/-- A place at which the text is split is an occurrence of a separator. -/
theorem SplitAt.occurs {chunkSize : ℕ} {separators : List Text} {text : Text} {start : ℕ}
    (h : SplitAt chunkSize separators text start separator) : Occurs text separator start := by
  induction h with
  | between hsplit hpre hpost => exact occurs_between hsplit hpre hpost
  | inside hsplit _ _ _ ih => exact (occurs_piece hsplit).trans ih

/-- `_split_text_recursive` covers the text, by induction on the number of separators. -/
theorem splitTextRecursive_cover {chunkSize : ℕ} (chunkOverlap : ℕ) (hsize : 1 ≤ chunkSize)
    {separators : List Text} (hne : separators ≠ []) (text : Text) :
    ∃ placed, splitTextRecursive chunkSize chunkOverlap List.length separators text =
        .ok (placed.map Prod.snd) ∧
      Cover isspace text (SplitAt chunkSize separators text) placed := by
  generalize hn : separators.length = n
  induction n using Nat.strong_induction_on generalizing separators text with
  | _ n ih =>
    obtain ⟨sep, seps, rfl⟩ := List.exists_cons_of_ne_nil hne
    have hfewer : (pickBestSeparator text (sep :: seps)).2.length < n := by
      rw [← hn]
      exact pickFrom_length text _ sep seps
    have hsplits := Pieces.join_split (pickBestSeparator text (sep :: seps)).1 text
    have hnext : ∀ s, chunkSize ≤ s.length → ∃ placed,
        (if (pickBestSeparator text (sep :: seps)).2 = [] then .ok [s]
          else splitTextRecursive chunkSize chunkOverlap List.length
            (pickBestSeparator text (sep :: seps)).2 s) = .ok (placed.map Prod.snd) ∧
        Cover isspace s (fun start separator => chunkSize ≤ s.length ∧
          (pickBestSeparator text (sep :: seps)).2 ≠ [] ∧
          SplitAt chunkSize (pickBestSeparator text (sep :: seps)).2 s start separator) placed := by
      intro s hbig
      by_cases hnil : (pickBestSeparator text (sep :: seps)).2 = []
      · have hs : s ≠ [] := List.ne_nil_of_length_pos (lt_of_lt_of_le hsize hbig)
        exact ⟨[(0, s)], if_pos hnil, Pieces.cover_self hs⟩
      · obtain ⟨inside, hinside, hs⟩ := ih _ hfewer hnil s rfl
        refine ⟨inside, (if_neg hnil).trans hinside, hs.mono fun start separator hcut => ?_⟩
        exact ⟨hbig, hnil, hcut⟩
    have hdone : ∀ inner, Cover isspace (join (pickBestSeparator text (sep :: seps)).1 [])
        (CutIn (pickBestSeparator text (sep :: seps)).1 inner []) [] := fun _ => Pieces.cover_nil
    obtain ⟨placed, hgather, hcover⟩ := gather_cover (pickBestSeparator text (sep :: seps)).1 _
      chunkOverlap _ hnext (splitText text (pickBestSeparator text (sep :: seps)).1) [] (hdone _)
    refine ⟨placed, ?_, ?_⟩
    · rw [splitTextRecursive]
      exact hgather
    · rw [List.append_nil, List.nil_append] at hcover
      unfold join splitText at hcover
      rw [hsplits] at hcover
      refine hcover.mono fun start separator hcut => ?_
      cases hcut with
      | between hsplit hpre hpost => exact .between hsplit hpre hpost
      | inside hsplit hinner => exact .inside hsplit hinner.1 hinner.2.1 hinner.2.2

theorem splitTextBySeparatorsRecursively_cover (text : Text) {separators : List Text}
    {chunkSize chunkOverlap : ℕ} {name : String} (hsize : 1 ≤ chunkSize)
    (hoverlap : chunkOverlap ≤ chunkSize) (hne : separators ≠ [])
    (hname : name = "default" ∨ name = "string") :
    ∃ placed, splitTextBySeparatorsRecursively text chunkSize chunkOverlap separators name =
        .ok (placed.map Prod.snd) ∧
      Cover isspace text (SplitAt chunkSize separators text) placed := by
  unfold splitTextBySeparatorsRecursively
  rw [checkChunkOverlap_of_le hoverlap, Except.ok_bind, lengthFunction_eq hname, Except.ok_bind]
  exact splitTextRecursive_cover chunkOverlap hsize hne text

/-! ## Both splitters -/

/-- The places at which `split_text_by_separator` cuts the text. -/
def CutAt (separator text : Text) : ℕ → Text → Prop :=
  CutIn separator (fun _ _ _ => False) (splitText text separator)

theorem CutAt.occurs {text sep : Text} {start : ℕ} (h : CutAt separator text start sep) :
    Occurs text sep start := by
  cases h with
  | between hsplit hpre hpost => exact occurs_between hsplit hpre hpost
  | inside _ hinner => exact hinner.elim

/-- A splitter returned chunks that keep the text: each occurs in it, in order of the places, and
a byte outside of all chunks is blank or belongs to an occurrence of a separator at which the text
was cut. -/
def Keeps (text : Text) (cut : ℕ → Text → Prop) (result : Except Fault (List Text)) : Prop :=
  ∃ placed, result = .ok (placed.map Prod.snd) ∧ Cover isspace text cut placed ∧
    ∀ start sep, cut start sep → Occurs text sep start

/-- No text is lost or invented by the text splitters. -/
theorem splitters_keep (text : Text) (chunkSize chunkOverlap : ℕ) (name : String)
    (hsize : 1 ≤ chunkSize) (hoverlap : chunkOverlap ≤ chunkSize)
    (hname : name = "default" ∨ name = "string") :
    (∀ separators, separators ≠ [] → Keeps text (SplitAt chunkSize separators text)
      (splitTextBySeparatorsRecursively text chunkSize chunkOverlap separators name)) ∧
    (∀ separator, Keeps text (CutAt separator text)
      (splitTextBySeparator text chunkSize chunkOverlap separator name)) := by
  constructor
  · intro separators hne
    obtain ⟨placed, hsplit, hcover⟩ :=
      splitTextBySeparatorsRecursively_cover text hsize hoverlap hne hname
    exact ⟨placed, hsplit, hcover, fun _ _ hcut => hcut.occurs⟩
  · intro separator
    obtain ⟨placed, hsplit, hcover⟩ :=
      splitTextBySeparator_cover (fun _ _ _ => False) text separator hoverlap hname
    exact ⟨placed, hsplit, hcover, fun _ _ hcut => hcut.occurs⟩

/-- The text `ab c` in chunks of at most two bytes, at blanks first and then anywhere. -/
theorem splitters_keep_abc :
    Keeps [0x61, 0x62, 0x20, 0x63] (SplitAt 2 [[0x20], []] [0x61, 0x62, 0x20, 0x63])
      (splitTextBySeparatorsRecursively [0x61, 0x62, 0x20, 0x63] 2 1 [[0x20], []] "default") :=
  (splitters_keep [0x61, 0x62, 0x20, 0x63] 2 1 "default" (by decide) (by decide)
    (.inl rfl)).1 [[0x20], []] (by decide)

end SplitText

end Ailoy
