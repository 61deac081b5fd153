import Ailoy.Lib.Transition
import Ailoy.Vm.SplitBounds
import Mathlib.Algebra.GroupWithZero.Nat

/-!
# The loops of the text splitters

`_merge_splits` and `_split_text_recursive` of `vm/src/split_text.cpp`, one step after the other.
`MergeState` is where `_merge_splits` is, with its sums in `size_t`: they wrap, and `deque::at` throws
on an empty window. `Recursion` is where `_split_text_recursive` is, with the calls that wait for
another one.

At the heads of both loops the total is the length of the joined window (`MergeState.Inv`), so
nothing wraps or throws, and a number that each step makes smaller bounds the run. A call has fewer
separators than the one that waits for it (`Recursion.Inv`).
-/

namespace Ailoy

namespace SplitText

open Transition (Reach ReachVia)

/-! ## The steps of `_merge_splits` -/

/-- `std::string::size`, which is what both length functions return. -/
def size (s : Text) : UInt64 := .ofNat s.length

/-- `calculate_total_direct`. -/
def calculateTotalDirect (current : List Text) (separatorLen newLen : UInt64) : UInt64 :=
  if current = [] then newLen
  else
    current.foldl (fun res e => res + size e) 0 +
      (UInt64.ofNat current.length - 1) * separatorLen +
      (if newLen ≠ 0 then separatorLen + newLen else 0)

/-- Where `_merge_splits` is. -/
inductive MergeState
  /-- At the head of the `for` loop, with the fragments that are left. -/
  | forHead (docs current : List Text) (total : UInt64) (splits : List Text)
  /-- At the head of the `while` loop, which makes room for the fragment `s`. -/
  | whileHead (docs current : List Text) (total totalIfMerge : UInt64) (s : Text)
      (splits : List Text)
  | returned (docs : List Text)
  /-- `current.at(0)` has thrown. -/
  | threw

section Merge

variable (separator : Text) (chunkSize chunkOverlap : UInt64)

/-- The condition of the `while` loop. -/
abbrev Slides (total totalIfMerge : UInt64) : Prop :=
  total > chunkOverlap ∨ (totalIfMerge > chunkSize ∧ total > 0)

/-- A step of `_merge_splits`. -/
def MergeState.next : MergeState → Option MergeState
  | .forHead docs current _ [] => some (.returned (completeDocument separator docs current))
  | .forHead docs current total (s :: splits) =>
    let newLen := size s
    let totalIfMerge := total + newLen + (if current ≠ [] then size separator else 0)
    if totalIfMerge > chunkSize ∧ current ≠ [] then
      some (.whileHead (completeDocument separator docs current) current total totalIfMerge s splits)
    else some (.forHead docs (current ++ [s]) totalIfMerge splits)
  | .whileHead docs current total totalIfMerge s splits =>
    if Slides chunkSize chunkOverlap total totalIfMerge then
      match current with
      | [] => some .threw
      | first :: current =>
        let separatorLen := if current ≠ [] then size separator else 0
        let total := total - (size first + separatorLen)
        some (.whileHead docs current total (total + size s + separatorLen) s splits)
    else some (.forHead docs (current ++ [s]) totalIfMerge splits)
  | .returned _ | .threw => none

/-- The steps, as a machine without inputs. -/
abbrev mergeMachine (st : MergeState) (_ : Unit) : Option MergeState :=
  st.next separator chunkSize chunkOverlap

end Merge

/-! ## The sums -/

variable {separator : Text} {chunkSize chunkOverlap : UInt64} {st st' : MergeState}

/-- The length of a joined window: its fragments, with a separator between each two. -/
theorem length_join (separator : Text) (current : List Text) :
    (join separator current).length =
      (current.map List.length).sum + (current.length - 1) * separator.length := by
  induction current with
  | nil => simp [join, Pieces.join]
  | cons first current ih =>
    rw [length_join_cons, ih, List.map_cons, List.sum_cons, List.length_cons, Nat.add_sub_cancel]
    cases current with
    | nil => simp
    | cons second current =>
      rw [if_pos (List.cons_ne_nil _ _), List.length_cons, Nat.add_sub_cancel, Nat.add_one_mul]
      omega

/-- A part of the fragments is no longer than all of them. -/
theorem length_join_le (separator : Text) (dropped current rest : List Text) :
    (join separator current).length ≤
      (join separator (dropped ++ (current ++ rest))).length := by
  by_cases hne : current = []
  · subst hne
    exact Nat.zero_le _
  · have hle := (Pieces.occurs_join (d := separator) dropped rest hne).le
    exact (Nat.le_add_left _ _).trans hle

/-- The total with the next fragment, in `size_t`. -/
theorem ofNat_length_join_concat (separator : Text) (current : List Text) (s : Text) :
    UInt64.ofNat (join separator current).length + size s +
        (if current ≠ [] then size separator else 0) =
      .ofNat (join separator (current ++ [s])).length := by
  rw [length_join_concat, UInt64.ofNat_add, UInt64.ofNat_add]
  split_ifs <;> rfl

/-- The total without the first fragment, in `size_t`. -/
theorem ofNat_length_join_cons (separator first : Text) (current : List Text) :
    UInt64.ofNat (join separator (first :: current)).length -
        (size first + if current ≠ [] then size separator else 0) =
      .ofNat (join separator current).length := by
  have hfirst : size first + (if current ≠ [] then size separator else 0) =
      .ofNat (first.length + if current ≠ [] then separator.length else 0) := by
    rw [UInt64.ofNat_add]
    split_ifs <;> rfl
  rw [length_join_cons, UInt64.ofNat_add, hfirst, UInt64.add_sub_cancel]

/-- The sum of the sizes, in `size_t`. -/
theorem foldl_size (current : List Text) (res : UInt64) :
    current.foldl (fun res e => res + size e) res =
      res + .ofNat (current.map List.length).sum := by
  induction current generalizing res with
  | nil => exact (UInt64.add_zero res).symm
  | cons first current ih =>
    rw [List.foldl_cons, ih, List.map_cons, List.sum_cons, UInt64.ofNat_add, UInt64.add_assoc]
    rfl

/-- `calculate_total_direct` of a window is the length of the joined window. -/
theorem calculateTotalDirect_eq (separator : Text) (current : List Text) :
    calculateTotalDirect current (size separator) 0 = .ofNat (join separator current).length := by
  unfold calculateTotalDirect
  by_cases hne : current = []
  · rw [if_pos hne, hne]
    rfl
  · have hpos : 1 ≤ current.length := List.length_pos_iff.mpr hne
    have hcount : UInt64.ofNat current.length - 1 = .ofNat (current.length - 1) :=
      (UInt64.ofNat_sub hpos).symm
    rw [if_neg hne, foldl_size, hcount, length_join, UInt64.ofNat_add, UInt64.ofNat_mul]
    simp [size]

/-! ## The heads of the loops -/

namespace MergeState

/-- The window and what is left are the end of the fragments, and the totals are the lengths of what
would be joined. -/
def Inv (separator : Text) (pieces : List Text) : MergeState → Prop
  | .forHead _ current total splits =>
    (∃ dropped, pieces = dropped ++ (current ++ splits)) ∧
      total = .ofNat (join separator current).length
  | .whileHead _ current total totalIfMerge s splits =>
    (∃ dropped, pieces = dropped ++ (current ++ s :: splits)) ∧
      total = .ofNat (join separator current).length ∧
      totalIfMerge = .ofNat (join separator (current ++ [s])).length
  | .returned _ => True
  | .threw => False

/-- A number that each step makes smaller. -/
def work : MergeState → ℕ
  | .forHead _ current _ splits => 3 * splits.length + current.length + 1
  | .whileHead _ current _ _ _ splits => 3 * splits.length + current.length + 3
  | .returned _ | .threw => 0

/-- The length of a joined window in `size_t`. -/
abbrev joined (separator : Text) (current : List Text) : UInt64 :=
  .ofNat (join separator current).length

/-- What a step does in the states of the invariant. -/
inductive Advances (separator : Text) (chunkSize chunkOverlap : UInt64) :
    MergeState → MergeState → Prop
  | returns {docs current : List Text} {total : UInt64} :
      Advances separator chunkSize chunkOverlap (.forHead docs current total [])
        (.returned (completeDocument separator docs current))
  | grows {docs current splits : List Text} {s : Text}
      (hroom : ¬ (joined separator (current ++ [s]) > chunkSize ∧ current ≠ [])) :
      Advances separator chunkSize chunkOverlap
        (.forHead docs current (joined separator current) (s :: splits))
        (.forHead docs (current ++ [s]) (joined separator (current ++ [s])) splits)
  | completes {docs current splits : List Text} {s : Text}
      (hfull : joined separator (current ++ [s]) > chunkSize ∧ current ≠ []) :
      Advances separator chunkSize chunkOverlap
        (.forHead docs current (joined separator current) (s :: splits))
        (.whileHead (completeDocument separator docs current) current (joined separator current)
          (joined separator (current ++ [s])) s splits)
  | pops {docs current splits : List Text} {first s : Text}
      (hslides : Slides chunkSize chunkOverlap (joined separator (first :: current))
        (joined separator (first :: current ++ [s]))) :
      Advances separator chunkSize chunkOverlap
        (.whileHead docs (first :: current) (joined separator (first :: current))
          (joined separator (first :: current ++ [s])) s splits)
        (.whileHead docs current (joined separator current) (joined separator (current ++ [s])) s
          splits)
  | leaves {docs current splits : List Text} {s : Text}
      (hfits : ¬ Slides chunkSize chunkOverlap (joined separator current)
        (joined separator (current ++ [s]))) :
      Advances separator chunkSize chunkOverlap
        (.whileHead docs current (joined separator current) (joined separator (current ++ [s])) s
          splits)
        (.forHead docs (current ++ [s]) (joined separator (current ++ [s])) splits)

/-- The `while` loop goes on only with a window that has fragments. -/
theorem not_slides_nil (separator : Text) (totalIfMerge : UInt64) :
    ¬ Slides chunkSize chunkOverlap (joined separator []) totalIfMerge := by
  have hzero : joined separator [] = 0 := rfl
  rw [hzero]
  rintro (h | ⟨-, h⟩)
  · exact UInt64.not_lt_zero h
  · exact UInt64.lt_irrefl 0 h

/-- A step in a state of the invariant is one of these. -/
theorem advances_of_next {pieces : List Text} (h : st.Inv separator pieces)
    (hnext : st.next separator chunkSize chunkOverlap = some st') :
    Advances separator chunkSize chunkOverlap st st' := by
  cases st with
  | forHead docs current total splits =>
    obtain ⟨-, rfl⟩ := h
    cases splits with
    | nil =>
      obtain rfl := Option.some.inj hnext
      exact .returns
    | cons s splits =>
      simp only [MergeState.next, ofNat_length_join_concat] at hnext
      split_ifs at hnext with hfull
      · obtain rfl := Option.some.inj hnext
        exact .completes hfull
      · obtain rfl := Option.some.inj hnext
        exact .grows hfull
  | whileHead docs current total totalIfMerge s splits =>
    obtain ⟨-, rfl, rfl⟩ := h
    by_cases hslides : Slides chunkSize chunkOverlap (joined separator current)
        (joined separator (current ++ [s]))
    · cases current with
      | nil => exact absurd hslides (not_slides_nil separator _)
      | cons first current =>
        rw [MergeState.next, if_pos hslides] at hnext
        dsimp only at hnext
        rw [ofNat_length_join_cons, ofNat_length_join_concat] at hnext
        obtain rfl := Option.some.inj hnext
        exact .pops hslides
    · unfold MergeState.next at hnext
      dsimp only at hnext
      rw [if_neg hslides] at hnext
      obtain rfl := Option.some.inj hnext
      exact .leaves hslides
  | returned docs => cases hnext
  | threw => exact h.elim

/-- A step keeps the totals. -/
theorem Inv.next {pieces : List Text} (h : st.Inv separator pieces)
    (hnext : st.next separator chunkSize chunkOverlap = some st') :
    st'.Inv separator pieces := by
  have hadvances := advances_of_next h hnext
  cases hadvances with
  | returns => trivial
  | grows _ =>
    obtain ⟨⟨dropped, hpieces⟩, -⟩ := h
    exact ⟨⟨dropped, by simpa using hpieces⟩, rfl⟩
  | completes _ => exact ⟨h.1, rfl, rfl⟩
  | @pops _ _ _ first _ _ =>
    obtain ⟨⟨dropped, hpieces⟩, -⟩ := h
    exact ⟨⟨dropped ++ [first], by simpa using hpieces⟩, rfl, rfl⟩
  | leaves _ =>
    obtain ⟨⟨dropped, hpieces⟩, -⟩ := h
    exact ⟨⟨dropped, by simpa using hpieces⟩, rfl⟩

/-- A step takes from the work. -/
theorem Advances.work_lt (h : Advances separator chunkSize chunkOverlap st st') :
    st'.work < st.work := by
  cases h with
  | returns => exact Nat.succ_pos _
  | grows _ | completes _ | pops _ | leaves _ =>
    simp only [work, List.length_cons, List.length_append, List.length_nil]
    omega

/-- Each state that `_merge_splits` reaches has the invariant. -/
theorem inv_of_reach {pieces : List Text}
    (h : Reach (mergeMachine separator chunkSize chunkOverlap) (.forHead [] [] 0 pieces) st) :
    st.Inv separator pieces := by
  have hinit : (MergeState.forHead [] [] 0 pieces).Inv separator pieces := ⟨⟨[], rfl⟩, rfl⟩
  exact h.invariant hinit fun _ _ _ _ hinv _ hnext => hinv.next hnext

/-- `_merge_splits` returns. -/
theorem exists_reach_returned (separator : Text) (chunkSize chunkOverlap : UInt64)
    (pieces : List Text) : ∃ docs,
    Reach (mergeMachine separator chunkSize chunkOverlap) (.forHead [] [] 0 pieces)
      (.returned docs) := by
  obtain ⟨st, hreach, hstuck⟩ :=
    Transition.exists_reach_stuck (mergeMachine separator chunkSize chunkOverlap)
      (.forHead [] [] 0 pieces) fun _ _ _ hr hnext =>
        (advances_of_next (inv_of_reach hr) hnext).work_lt
  have hinv := inv_of_reach hreach
  have hnone := hstuck ()
  cases st with
  | returned docs => exact ⟨docs, hreach⟩
  | threw => exact hinv.elim
  | forHead docs current total splits =>
    cases splits with
    | nil => cases hnone
    | cons s splits =>
      unfold mergeMachine MergeState.next at hnone
      dsimp only at hnone
      split_ifs at hnone
  | whileHead docs current total totalIfMerge s splits =>
    unfold mergeMachine MergeState.next at hnone
    dsimp only at hnone
    split_ifs at hnone
    cases current <;> cases hnone

/-- The `while` loop takes at most one round for each fragment of its window. -/
theorem whileHead_ends {pieces docs current splits : List Text} {total totalIfMerge : UInt64}
    {s : Text} (h : (whileHead docs current total totalIfMerge s splits).Inv separator pieces) :
    ∃ n ≤ current.length, ∃ kept total',
      Transition.run (mergeMachine separator chunkSize chunkOverlap)
        (.whileHead docs current total totalIfMerge s splits) (List.replicate (n + 1) ()) =
      some (.forHead docs (kept ++ [s]) total' splits) := by
  obtain ⟨⟨dropped, hpieces⟩, rfl, rfl⟩ := h
  clear hpieces
  induction current with
  | nil =>
    refine ⟨0, Nat.zero_le _, [], joined separator ([] ++ [s]), ?_⟩
    rw [List.replicate_one, Transition.run_cons, mergeMachine, MergeState.next,
      if_neg (not_slides_nil separator _)]
    rfl
  | cons first current ih =>
    by_cases hslides : Slides chunkSize chunkOverlap (joined separator (first :: current))
        (joined separator (first :: current ++ [s]))
    · obtain ⟨n, hn, kept, total', hrun⟩ := ih
      refine ⟨n + 1, Nat.succ_le_succ hn, kept, total', ?_⟩
      rw [List.replicate_succ, Transition.run_cons, mergeMachine, MergeState.next, if_pos hslides]
      dsimp only
      rw [ofNat_length_join_cons, ofNat_length_join_concat]
      exact hrun
    · refine ⟨0, Nat.zero_le _, first :: current, joined separator (first :: current ++ [s]), ?_⟩
      rw [List.replicate_one, Transition.run_cons, mergeMachine, MergeState.next, if_neg hslides]
      rfl

/-! ## The sums below `2 ^ 64` -/

/-- What is left to be returned, where nothing wraps. -/
def result (separator : Text) (chunkSize chunkOverlap : UInt64) :
    MergeState → Except Fault (List Text)
  | .forHead docs current total splits => do
    let w ← mergeLoop separator chunkSize.toNat chunkOverlap.toNat List.length splits
      ⟨docs, current, total.toNat⟩
    return completeDocument separator w.docs w.current
  | .whileHead docs current total totalIfMerge s splits => do
    let (current, total) ← slide separator chunkSize.toNat chunkOverlap.toNat List.length s.length
      current total.toNat totalIfMerge.toNat
    let w ← mergeLoop separator chunkSize.toNat chunkOverlap.toNat List.length splits
      ⟨docs, current ++ [s], total⟩
    return completeDocument separator w.docs w.current
  | .returned docs => .ok docs
  | .threw => .error (.exception "deque::at")

theorem toNat_joined {current : List Text} (h : (join separator current).length < 2 ^ 64) :
    (joined separator current).toNat = (join separator current).length :=
  UInt64.toNat_ofNat_of_lt' h

/-- The `while` loop goes on as long as the window does not fit. -/
theorem slides_iff {current : List Text} {s : Text}
    (h : (join separator (current ++ [s])).length < 2 ^ 64) :
    Slides chunkSize chunkOverlap (joined separator current) (joined separator (current ++ [s])) ↔
      ¬ Fits separator chunkSize.toNat chunkOverlap.toNat s.length current := by
  have hconcat := length_join_concat separator s current
  have hcurrent : (join separator current).length < 2 ^ 64 := by omega
  have hzero : (0 : UInt64).toNat = 0 := rfl
  unfold Slides Fits
  rw [gt_iff_lt, gt_iff_lt, gt_iff_lt, UInt64.lt_iff_toNat_lt, UInt64.lt_iff_toNat_lt,
    UInt64.lt_iff_toNat_lt, toNat_joined h, toNat_joined hcurrent, hzero, hconcat]
  omega

/-- At a window that fits, the `while` loop ends. -/
theorem slide_of_fits {chunkSize chunkOverlap newLen : ℕ} {current : List Text}
    (h : Fits separator chunkSize chunkOverlap newLen current) :
    slide separator chunkSize chunkOverlap List.length newLen current
        (join separator current).length
        ((join separator current).length + newLen + if current ≠ [] then separator.length else 0) =
      .ok (current, (join separator current).length + newLen +
        if current ≠ [] then separator.length else 0) := by
  unfold Fits at h
  cases current with
  | nil => rw [slide, if_neg (by omega)]
  | cons first current => rw [slide, if_neg (by omega)]

/-- A window is a part of the fragments, and so is it with the next fragment. -/
theorem length_join_lt {pieces dropped current splits : List Text} {s : Text}
    (hlen : (join separator pieces).length < 2 ^ 64)
    (hpieces : pieces = dropped ++ (current ++ s :: splits)) :
    (join separator current).length < 2 ^ 64 ∧
      (join separator (current ++ [s])).length < 2 ^ 64 := by
  have hcurrent := length_join_le separator dropped current (s :: splits)
  have hwindow := length_join_le separator dropped (current ++ [s]) splits
  rw [List.append_assoc, List.singleton_append, ← hpieces] at hwindow
  rw [← hpieces] at hcurrent
  exact ⟨hcurrent.trans_lt hlen, hwindow.trans_lt hlen⟩

/-- An iteration that takes the next fragment as it is. -/
theorem mergeStep_grow {chunkSize chunkOverlap : ℕ} {docs current : List Text} {s : Text}
    (h : ¬ ((join separator (current ++ [s])).length > chunkSize ∧ current ≠ [])) :
    mergeStep separator chunkSize chunkOverlap List.length
        ⟨docs, current, (join separator current).length⟩ s =
      .ok ⟨docs, current ++ [s], (join separator (current ++ [s])).length⟩ := by
  rw [length_join_concat] at h ⊢
  unfold mergeStep
  dsimp only
  rw [if_neg h]
  rfl

/-- An iteration that puts the window out. -/
theorem mergeStep_complete {chunkSize chunkOverlap : ℕ} {docs current : List Text} {s : Text}
    (h : (join separator (current ++ [s])).length > chunkSize ∧ current ≠ []) :
    mergeStep separator chunkSize chunkOverlap List.length
        ⟨docs, current, (join separator current).length⟩ s =
      (slide separator chunkSize chunkOverlap List.length s.length current
        (join separator current).length (join separator (current ++ [s])).length >>= fun p =>
          .ok ⟨completeDocument separator docs current, p.1 ++ [s], p.2⟩) := by
  rw [length_join_concat] at h ⊢
  unfold mergeStep
  dsimp only
  rw [if_pos h]
  rfl

/-- Where nothing wraps, a step changes nothing about what is returned. -/
theorem Advances.result_eq {pieces : List Text}
    (h : Advances separator chunkSize chunkOverlap st st') (hinv : st.Inv separator pieces)
    (hlen : (join separator pieces).length < 2 ^ 64) :
    st.result separator chunkSize chunkOverlap = st'.result separator chunkSize chunkOverlap := by
  cases h with
  | returns => rfl
  | grows hroom =>
    obtain ⟨⟨dropped, hpieces⟩, -⟩ := hinv
    obtain ⟨hcurrent, hwindow⟩ := length_join_lt hlen hpieces
    rw [gt_iff_lt, UInt64.lt_iff_toNat_lt, toNat_joined hwindow] at hroom
    rw [result, result, toNat_joined hcurrent, toNat_joined hwindow, mergeLoop,
      mergeStep_grow hroom]
    rfl
  | completes hfull =>
    obtain ⟨⟨dropped, hpieces⟩, -⟩ := hinv
    obtain ⟨hcurrent, hwindow⟩ := length_join_lt hlen hpieces
    rw [gt_iff_lt, UInt64.lt_iff_toNat_lt, toNat_joined hwindow] at hfull
    rw [result, result, toNat_joined hcurrent, toNat_joined hwindow, mergeLoop,
      mergeStep_complete hfull]
    simp only [bind_assoc, Except.ok_bind]
  | pops hslides =>
    obtain ⟨⟨dropped, hpieces⟩, -⟩ := hinv
    obtain ⟨hfirst, hwindow⟩ := length_join_lt hlen hpieces
    -- The window without its first fragment is a part of the fragments as well.
    rw [List.cons_append, List.append_cons] at hpieces
    obtain ⟨hcurrent, hbehind⟩ := length_join_lt hlen hpieces
    have hfits := (slides_iff hwindow).mp hslides
    rw [result, result, toNat_joined hfirst, toNat_joined hcurrent, toNat_joined hwindow,
      toNat_joined hbehind, length_join_concat, length_join_concat, slide_cons _ _ _ _ _ _ hfits]
  | leaves hfits =>
    obtain ⟨⟨dropped, hpieces⟩, -⟩ := hinv
    obtain ⟨hcurrent, hwindow⟩ := length_join_lt hlen hpieces
    have hfits := not_not.mp ((slides_iff hwindow).not.mp hfits)
    rw [result, result, toNat_joined hcurrent, toNat_joined hwindow, length_join_concat,
      slide_of_fits hfits]
    rfl

/-- What `_merge_splits` returns is what it returns in sums without a bound. -/
theorem mergeSplits_of_reach {pieces docs : List Text}
    (hlen : (join separator pieces).length < 2 ^ 64)
    (h : Reach (mergeMachine separator chunkSize chunkOverlap) (.forHead [] [] 0 pieces)
      (.returned docs)) :
    mergeSplits separator chunkSize.toNat chunkOverlap.toNat List.length pieces = .ok docs := by
  have hresult := h.invariant (P := fun st => st.result separator chunkSize chunkOverlap =
    mergeSplits separator chunkSize.toNat chunkOverlap.toNat List.length pieces) rfl
    fun st _ st' hr ih _ hnext => by
      have hinv := inv_of_reach hr
      rw [← (advances_of_next hinv hnext).result_eq hinv hlen, ih]
  exact hresult.symm

/-- The total of a window: its fragments with a separator between each two. It is that of
`calculate_total_direct`, and where it is not zero, there is a fragment. -/
def TotalRight (separator : Text) (current : List Text) (total : UInt64) : Prop :=
  total.toNat = (current.map List.length).sum + (current.length - 1) * separator.length ∧
    total = calculateTotalDirect current (size separator) 0 ∧ (0 < total → current ≠ [])

/-- The total is right at the heads of both loops, and where the `while` loop goes on, there is a
first fragment, which can be taken from the total. -/
def Safe (separator : Text) (chunkSize chunkOverlap : UInt64) : MergeState → Prop
  | .forHead _ current total _ => TotalRight separator current total
  | .whileHead _ current total totalIfMerge _ _ =>
    TotalRight separator current total ∧
      (Slides chunkSize chunkOverlap total totalIfMerge → ∃ first rest, current = first :: rest ∧
        first.length + (if rest ≠ [] then separator.length else 0) ≤ total.toNat)
  | .returned _ => True
  | .threw => False

theorem totalRight_joined {current : List Text} (h : (join separator current).length < 2 ^ 64) :
    TotalRight separator current (joined separator current) := by
  refine ⟨?_, (calculateTotalDirect_eq separator current).symm, ?_⟩
  · rw [toNat_joined h, length_join]
  · rintro hpos rfl
    exact UInt64.lt_irrefl 0 hpos

/-- Where the sums stay below `2 ^ 64`, the invariant is safe. -/
theorem Inv.safe {pieces : List Text} (h : st.Inv separator pieces)
    (hlen : (join separator pieces).length < 2 ^ 64) :
    st.Safe separator chunkSize chunkOverlap := by
  cases st with
  | forHead docs current total splits =>
    obtain ⟨⟨dropped, rfl⟩, rfl⟩ := h
    exact totalRight_joined ((length_join_le separator dropped current splits).trans_lt hlen)
  | whileHead docs current total totalIfMerge s splits =>
    obtain ⟨⟨dropped, hpieces⟩, rfl, rfl⟩ := h
    obtain ⟨hcurrent, -⟩ := length_join_lt hlen hpieces
    refine ⟨totalRight_joined hcurrent, fun hslides => ?_⟩
    cases current with
    | nil => exact absurd hslides (not_slides_nil separator _)
    | cons first rest =>
      have hcons := length_join_cons separator first rest
      refine ⟨first, rest, rfl, ?_⟩
      rw [toNat_joined hcurrent]
      omega
  | returned docs => trivial
  | threw => exact h

end MergeState

/-! ## The calls of `_split_text_recursive` -/

/-- A call of `_split_text_recursive`. -/
structure Frame where
  /-- The separators it was called with. -/
  separators : List Text
  separator : Text
  newSeparators : List Text
  /-- The splits it has not come to. -/
  splits : List Text
  goodSplits : List Text
  finalChunks : List Text

/-- The separators for the next step are fewer than those of the call. -/
def Frame.Descends (f : Frame) : Prop := f.newSeparators.length < f.separators.length

/-- Where `_split_text_recursive` is, with the calls that wait for another one. -/
inductive Recursion
  | called (separators : List Text) (text : Text) (waiting : List Frame)
  /-- At the head of its loop. -/
  | running (frame : Frame) (waiting : List Frame)
  | returns (chunks : List Text) (waiting : List Frame)
  | failed

namespace Recursion

variable (chunkSize chunkOverlap : ℕ)

/-- A step of `_split_text_recursive`. -/
def next : Recursion → Option Recursion
  -- `separators.back()` of an empty list is a read outside of it.
  | .called [] _ _ => some .failed
  | .called (sep :: separators) text waiting =>
    let best := pickBestSeparator text (sep :: separators)
    some (.running ⟨sep :: separators, best.1, best.2, splitText text best.1, [], []⟩ waiting)
  | .running ⟨separators, separator, newSeparators, splits, goodSplits, finalChunks⟩ waiting =>
    match splits with
    | [] =>
      match mergeSplitsAndPut separator chunkSize chunkOverlap List.length finalChunks goodSplits with
      | .error _ => some .failed
      | .ok chunks => some (.returns chunks waiting)
    | s :: splits =>
      if s.length < chunkSize then
        some (.running
          ⟨separators, separator, newSeparators, splits, goodSplits ++ [s], finalChunks⟩ waiting)
      else
        match mergeSplitsAndPut separator chunkSize chunkOverlap List.length finalChunks goodSplits with
        | .error _ => some .failed
        | .ok chunks =>
          if newSeparators = [] then
            some (.running ⟨separators, separator, newSeparators, splits, [], chunks ++ [s]⟩ waiting)
          else
            some (.called newSeparators s
              (⟨separators, separator, newSeparators, splits, [], chunks⟩ :: waiting))
  | .returns _ [] => none
  | .returns chunks (frame :: waiting) =>
    some (.running { frame with finalChunks := frame.finalChunks ++ chunks } waiting)
  | .failed => none

/-- The steps, as a machine without inputs. -/
abbrev machine (st : Recursion) (_ : Unit) : Option Recursion := st.next chunkSize chunkOverlap

variable {chunkSize chunkOverlap : ℕ}

/-- `_merge_splits_and_put` throws nothing. -/
theorem mergeSplitsAndPut_ok (separator : Text) (chunkSize chunkOverlap : ℕ)
    (chunks goodSplits : List Text) : ∃ chunks',
      mergeSplitsAndPut separator chunkSize chunkOverlap List.length chunks goodSplits =
        .ok chunks' := by
  unfold mergeSplitsAndPut
  split_ifs
  · obtain ⟨w, hloop, -⟩ :=
      mergeLoop_ok separator chunkSize chunkOverlap goodSplits (w := ⟨[], [], 0⟩) rfl
    rw [mergeSplits, hloop]
    exact ⟨_, rfl⟩
  · exact ⟨chunks, rfl⟩

/-- A call has separators, fewer than the one that waits for it. -/
def Inv : Recursion → Prop
  | .called separators _ waiting =>
    separators ≠ [] ∧ (∀ f ∈ waiting.head?, separators.length < f.separators.length) ∧
      ∀ f ∈ waiting, f.Descends
  | .running f waiting => ∀ f' ∈ f :: waiting, f'.Descends
  | .returns _ waiting => ∀ f ∈ waiting, f.Descends
  | .failed => False

/-- A step keeps the order of the separators. -/
theorem Inv.next {st st' : Recursion} (h : st.Inv) (hnext : st.next chunkSize chunkOverlap = some st') :
    st'.Inv := by
  cases st with
  | called separators text waiting =>
    obtain ⟨hne, -, hwaiting⟩ := h
    cases separators with
    | nil => exact absurd rfl hne
    | cons sep separators =>
      obtain rfl := Option.some.inj hnext
      exact List.forall_mem_cons.mpr ⟨pickFrom_length text _ sep separators, hwaiting⟩
  | running f waiting =>
    obtain ⟨separators, separator, newSeparators, splits, goodSplits, finalChunks⟩ := f
    obtain ⟨hf, hwaiting⟩ := List.forall_mem_cons.mp h
    obtain ⟨chunks, hput⟩ :=
      mergeSplitsAndPut_ok separator chunkSize chunkOverlap finalChunks goodSplits
    cases splits with
    | nil =>
      simp only [Recursion.next, hput] at hnext
      obtain rfl := Option.some.inj hnext
      exact hwaiting
    | cons s splits =>
      simp only [Recursion.next, hput] at hnext
      split_ifs at hnext with hgood hlast
      · obtain rfl := Option.some.inj hnext
        exact List.forall_mem_cons.mpr ⟨hf, hwaiting⟩
      · obtain rfl := Option.some.inj hnext
        exact List.forall_mem_cons.mpr ⟨hf, hwaiting⟩
      · obtain rfl := Option.some.inj hnext
        refine ⟨hlast, fun f hmem => ?_, List.forall_mem_cons.mpr ⟨hf, hwaiting⟩⟩
        obtain rfl := Option.some.inj hmem
        exact hf
  | returns chunks waiting =>
    cases waiting with
    | nil => cases hnext
    | cons f waiting =>
      obtain rfl := Option.some.inj hnext
      obtain ⟨hf, hwaiting⟩ : f.Descends ∧ ∀ f' ∈ waiting, f'.Descends := List.forall_mem_cons.mp h
      exact List.forall_mem_cons.mpr ⟨hf, hwaiting⟩
  | failed => exact h.elim

/-- In each call that is reached, the separators are fewer than in the one that waits for it. -/
theorem inv_of_reach {separators : List Text} {text : Text} {st : Recursion} (hne : separators ≠ [])
    (h : Reach (machine chunkSize chunkOverlap) (.called separators text []) st) : st.Inv := by
  have hinit : (Recursion.called separators text []).Inv := ⟨hne, nofun, nofun⟩
  exact h.invariant hinit fun _ _ _ _ hinv _ hnext => hinv.next hnext

/-- The loop of a call returns, where the calls that it makes do. -/
theorem reach_gather (chunkSize chunkOverlap : ℕ) (separators newSeparators : List Text)
    (separator : Text) (next : Text → Except Fault (List Text)) (waiting : List Frame)
    (hlast : newSeparators = [] → ∀ s, next s = .ok [s])
    (hcall : newSeparators ≠ [] → ∀ s waiting, ∃ out, next s = .ok out ∧
      Reach (machine chunkSize chunkOverlap) (.called newSeparators s waiting) (.returns out waiting))
    (splits goodSplits finalChunks : List Text) :
    ∃ out, gather separator chunkSize chunkOverlap List.length next splits goodSplits finalChunks =
        .ok out ∧
      Reach (machine chunkSize chunkOverlap)
        (.running ⟨separators, separator, newSeparators, splits, goodSplits, finalChunks⟩ waiting)
        (.returns out waiting) := by
  induction splits generalizing goodSplits finalChunks with
  | nil =>
    obtain ⟨chunks, hput⟩ :=
      mergeSplitsAndPut_ok separator chunkSize chunkOverlap finalChunks goodSplits
    refine ⟨chunks, hput, ReachVia.init.step (a := ()) trivial ?_⟩
    simp only [machine, Recursion.next, hput]
  | cons s splits ih =>
    unfold gather
    by_cases hgood : s.length < chunkSize
    · obtain ⟨out, hgather, hreach⟩ := ih (goodSplits ++ [s]) finalChunks
      refine ⟨out, by rw [if_pos hgood, hgather], ?_⟩
      refine (ReachVia.init.step (a := ()) trivial ?_).trans hreach
      simp only [machine, Recursion.next, if_pos hgood]
    · obtain ⟨chunks, hput⟩ :=
        mergeSplitsAndPut_ok separator chunkSize chunkOverlap finalChunks goodSplits
      rw [if_neg hgood, hput, Except.ok_bind]
      by_cases hnew : newSeparators = []
      · obtain ⟨out, hgather, hreach⟩ := ih [] (chunks ++ [s])
        refine ⟨out, by rw [hlast hnew, Except.ok_bind, hgather], ?_⟩
        refine (ReachVia.init.step (a := ()) trivial ?_).trans hreach
        simp only [machine, Recursion.next, if_neg hgood, hput, if_pos hnew]
      · obtain ⟨inner, hnext, hinner⟩ := hcall hnew s
          (⟨separators, separator, newSeparators, splits, [], chunks⟩ :: waiting)
        obtain ⟨out, hgather, hreach⟩ := ih [] (chunks ++ inner)
        refine ⟨out, by rw [hnext, Except.ok_bind, hgather], ?_⟩
        -- The call, what it does, and what is done with what it returns.
        refine (ReachVia.init.step (a := ()) trivial ?_).trans
          ((hinner.step (a := ()) trivial rfl).trans hreach)
        simp only [machine, Recursion.next, if_neg hgood, hput, if_neg hnew]

/-- A call with separators returns, by induction on their number. -/
theorem reach_returns {separators : List Text} (hne : separators ≠ []) (text : Text)
    (waiting : List Frame) :
    ∃ out, splitTextRecursive chunkSize chunkOverlap List.length separators text = .ok out ∧
      Reach (machine chunkSize chunkOverlap) (.called separators text waiting)
        (.returns out waiting) := by
  generalize hn : separators.length = n
  induction n using Nat.strong_induction_on generalizing separators text waiting with
  | _ n ih =>
    obtain ⟨sep, seps, rfl⟩ := List.exists_cons_of_ne_nil hne
    have hfewer := pickFrom_length text ((sep :: seps).getLastD []) sep seps
    rw [splitTextRecursive]
    set best := pickBestSeparator text (sep :: seps)
    obtain ⟨out, hgather, hreach⟩ := reach_gather chunkSize chunkOverlap (sep :: seps) best.2 best.1
      (fun s => if best.2 = [] then .ok [s]
        else splitTextRecursive chunkSize chunkOverlap List.length best.2 s) waiting
      (fun hlast s => if_pos hlast)
      (fun hnew s waiting => by
        rw [if_neg hnew]
        exact ih _ (hn ▸ hfewer) hnew s waiting rfl)
      (splitText text best.1) [] []
    exact ⟨out, hgather, (ReachVia.init.step (a := ()) trivial rfl).trans hreach⟩

end Recursion

/-! ## All loops and calls -/

/-- In every run of `_merge_splits` whose sums stay below `2 ^ 64`, the total is right at the heads of
both loops, no fragment is taken from an empty window or from a total that is too small, the
`while` loop ends, and so does the run. In every run of `_split_text_recursive` with separators,
each call has separators, fewer than the call that makes it, and the run ends. -/
theorem loops_end (splits : List Text) (separator : Text) (chunkSize chunkOverlap : UInt64)
    (hlen : (splits.map List.length).sum + (splits.length - 1) * separator.length < 2 ^ 64) :
    ((∀ st, Reach (mergeMachine separator chunkSize chunkOverlap) (.forHead [] [] 0 splits) st →
        st.Safe separator chunkSize chunkOverlap) ∧
      (∀ docs current total totalIfMerge s rest,
        Reach (mergeMachine separator chunkSize chunkOverlap) (.forHead [] [] 0 splits)
          (.whileHead docs current total totalIfMerge s rest) →
        ∃ n ≤ current.length, ∃ kept total',
          Transition.run (mergeMachine separator chunkSize chunkOverlap)
            (.whileHead docs current total totalIfMerge s rest) (List.replicate (n + 1) ()) =
          some (.forHead docs (kept ++ [s]) total' rest)) ∧
      ∃ docs, mergeSplits separator chunkSize.toNat chunkOverlap.toNat List.length splits =
          .ok docs ∧
        Reach (mergeMachine separator chunkSize chunkOverlap) (.forHead [] [] 0 splits)
          (.returned docs)) ∧
    ∀ (text : Text) (separators : List Text) (chunkSize chunkOverlap : ℕ), separators ≠ [] →
      (∀ seps s f waiting, Reach (Recursion.machine chunkSize chunkOverlap)
          (.called separators text []) (.called seps s (f :: waiting)) →
        seps ≠ [] ∧ seps.length < f.separators.length) ∧
      ∃ chunks, splitTextRecursive chunkSize chunkOverlap List.length separators text = .ok chunks ∧
        Reach (Recursion.machine chunkSize chunkOverlap) (.called separators text [])
          (.returns chunks []) := by
  have hjoin : (join separator splits).length < 2 ^ 64 := by rwa [length_join]
  refine ⟨⟨fun st hreach => (MergeState.inv_of_reach hreach).safe hjoin,
    fun docs current total totalIfMerge s rest hreach =>
      MergeState.whileHead_ends (MergeState.inv_of_reach hreach), ?_⟩,
    fun text separators chunkSize chunkOverlap hne =>
      ⟨fun seps s f waiting hreach => ?_, Recursion.reach_returns hne text []⟩⟩
  · obtain ⟨docs, hreach⟩ := MergeState.exists_reach_returned separator chunkSize chunkOverlap splits
    exact ⟨docs, MergeState.mergeSplits_of_reach hjoin hreach, hreach⟩
  · obtain ⟨hseps, hshorter, -⟩ := Recursion.inv_of_reach hne hreach
    exact ⟨hseps, hshorter f rfl⟩

/-- The fragments `a`, an empty one and `b` at commas, and the text `a,b` at commas and then between
its bytes. -/
theorem loops_end_ab :
    (∀ st, Reach (mergeMachine [0x2c] 2 1) (.forHead [] [] 0 [[0x61], [], [0x62]]) st →
      st.Safe [0x2c] 2 1) ∧
    ∃ chunks,
      splitTextRecursive 1 0 List.length [[0x2c], []] [0x61, 0x2c, 0x62] = .ok chunks ∧
      Reach (Recursion.machine 1 0) (.called [[0x2c], []] [0x61, 0x2c, 0x62] [])
        (.returns chunks []) := by
  have h := loops_end [[0x61], [], [0x62]] [0x2c] 2 1 (by decide)
  exact ⟨h.1.1, (h.2 [0x61, 0x2c, 0x62] [[0x2c], []] 1 0 (List.cons_ne_nil _ _)).2⟩

end SplitText

end Ailoy
