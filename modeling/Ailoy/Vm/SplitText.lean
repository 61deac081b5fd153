import Ailoy.Core.Value
import Ailoy.Lib.Coverage
import Ailoy.Lib.Except
import Mathlib.Algebra.Group.Nat.Defs

/-!
# The text splitters

`split_text_by_separator` and `split_text_by_separators_recursively` of `vm/src/split_text.cpp`.
Both cut the text at a separator and merge the fragments again into chunks: a window of fragments
grows until the next one does not fit, is put out as a chunk, and drops fragments in front until
what is left is a short enough overlap with room for the next one. The recursive splitter cuts a
fragment that is too big at the next separators. A text is the list of its bytes.
-/

namespace Ailoy

/-- The bytes of a `std::string`. -/
abbrev Text := List UInt8

namespace SplitText

/-- `-` of `size_t`, which wraps below zero. Sums of lengths stay below `2^64`. -/
def sizeSub (a b : ℕ) : ℕ := if b ≤ a then a - b else a + 2 ^ 64 - b

/-- `std::isspace` in the C locale. -/
def isspace (c : UInt8) : Bool := c = 0x20 ∨ (0x09 ≤ c ∧ c ≤ 0x0D)

/-- `utils::join`. -/
def join (delimiter : Text) (chunks : List Text) : Text := Pieces.join delimiter chunks

/-- `utils::split_text`, a `std::ranges::split_view`. -/
def splitText (s delimiter : Text) : List Text := Pieces.split delimiter s

/-- `utils::trim`. -/
def trim (s : Text) : Text := Pieces.trim isspace s

/-- `length_functions.at(name)`. -/
def lengthFunction (name : String) : Except Fault (Text → ℕ) :=
  if name = "default" ∨ name = "string" then .ok List.length
  else .error (.exception "unordered_map::at")

/-- `_check_chunk_overlap`. -/
def checkChunkOverlap (chunkSize chunkOverlap : ℕ) : Except Fault Unit :=
  if chunkOverlap > chunkSize then
    .error (.exception ("chunk_overlap(" ++ toString chunkOverlap ++
      ") should be smaller than chunk size(" ++ toString chunkSize ++ ")."))
  else .ok ()

section Merge

variable (separator : Text) (chunkSize chunkOverlap : ℕ) (flength : Text → ℕ)

/-- `complete_document` of `_merge_splits`: the joined window, unless it is blank. -/
def completeDocument (docs current : List Text) : List Text :=
  let doc := trim (join separator current)
  if doc ≠ [] then docs ++ [doc] else docs

/-- The `while` loop of `_merge_splits`, with the window, its total, and the total with the next
fragment. -/
def slide (newLen : ℕ) : List Text → ℕ → ℕ → Except Fault (List Text × ℕ)
  | [], total, totalIfMerge =>
    if total > chunkOverlap ∨ (totalIfMerge > chunkSize ∧ total > 0) then
      .error (.exception "deque::at")
    else .ok ([], totalIfMerge)
  | first :: current, total, totalIfMerge =>
    if total > chunkOverlap ∨ (totalIfMerge > chunkSize ∧ total > 0) then
      let separatorLen := if current ≠ [] then flength separator else 0
      let total := sizeSub total (flength first + separatorLen)
      slide newLen current total (total + newLen + separatorLen)
    else .ok (first :: current, totalIfMerge)

/-- The variables of `_merge_splits`. -/
structure Window where
  docs : List Text
  current : List Text
  total : ℕ

/-- One iteration of the loop of `_merge_splits`, for the next fragment. -/
def mergeStep (w : Window) (s : Text) : Except Fault Window := do
  let newLen := flength s
  let totalIfMerge := w.total + newLen + (if w.current ≠ [] then flength separator else 0)
  if totalIfMerge > chunkSize ∧ w.current ≠ [] then
    let docs := completeDocument separator w.docs w.current
    let (current, totalIfMerge) ←
      slide separator chunkSize chunkOverlap flength newLen w.current w.total totalIfMerge
    return ⟨docs, current ++ [s], totalIfMerge⟩
  else
    return ⟨w.docs, w.current ++ [s], totalIfMerge⟩

/-- The iterations of the loop of `_merge_splits`. -/
def mergeLoop : List Text → Window → Except Fault Window
  | [], w => .ok w
  | s :: splits, w => do
    let w ← mergeStep separator chunkSize chunkOverlap flength w s
    mergeLoop splits w

/-- `_merge_splits`. -/
def mergeSplits (splits : List Text) : Except Fault (List Text) := do
  let w ← mergeLoop separator chunkSize chunkOverlap flength splits ⟨[], [], 0⟩
  return completeDocument separator w.docs w.current

end Merge

/-- `split_text_by_separator`. -/
def splitTextBySeparator (text : Text) (chunkSize chunkOverlap : ℕ) (separator : Text)
    (lengthFunctionName : String) : Except Fault (List Text) := do
  checkChunkOverlap chunkSize chunkOverlap
  let flength ← lengthFunction lengthFunctionName
  mergeSplits separator chunkSize chunkOverlap flength (splitText text separator)

/-- `_pick_best_separator`: the first separator that the text contains, with those behind it. The
empty one ends the search, and if none is found, the last one is `fallback`. -/
def pickFrom (text : Text) (fallback : Text) : List Text → Text × List Text
  | [] => (fallback, [])
  | sep :: separators =>
    if sep = [] then ([], [])
    else if sep <:+: text then (sep, separators)
    else pickFrom text fallback separators

/-- `_pick_best_separator`, with `separators.back()` as the fallback. -/
def pickBestSeparator (text : Text) (separators : List Text) : Text × List Text :=
  pickFrom text (separators.getLastD []) separators

/-- The separators for the next step are fewer. -/
theorem pickFrom_length (text fallback : Text) (sep : Text) (separators : List Text) :
    (pickFrom text fallback (sep :: separators)).2.length < (sep :: separators).length := by
  induction separators generalizing sep with
  | nil =>
    unfold pickFrom
    split_ifs <;> simp [pickFrom]
  | cons sep' separators ih =>
    unfold pickFrom
    split_ifs
    · simp
    · simp
    · have := ih sep'
      simp only [List.length_cons] at this ⊢
      omega

section Gather

variable (separator : Text) (chunkSize chunkOverlap : ℕ) (flength : Text → ℕ)

/-- `_merge_splits_and_put` for the good splits, if there are any. -/
def mergeSplitsAndPut (chunks goodSplits : List Text) : Except Fault (List Text) :=
  if goodSplits ≠ [] then do
    let mergedChunks ← mergeSplits separator chunkSize chunkOverlap flength goodSplits
    return chunks ++ mergedChunks
  else return chunks

/-- The loop of `_split_text_recursive`, with the good splits and the chunks so far. What is made of
a split that is too big is the parameter `next`. -/
def gather (next : Text → Except Fault (List Text)) :
    List Text → List Text → List Text → Except Fault (List Text)
  | [], goodSplits, finalChunks =>
    mergeSplitsAndPut separator chunkSize chunkOverlap flength finalChunks goodSplits
  | s :: splits, goodSplits, finalChunks =>
    if flength s < chunkSize then gather next splits (goodSplits ++ [s]) finalChunks
    else do
      let finalChunks ←
        mergeSplitsAndPut separator chunkSize chunkOverlap flength finalChunks goodSplits
      let chunks ← next s
      gather next splits [] (finalChunks ++ chunks)

end Gather

/-- `_split_text_recursive`. `separators.back()` of an empty list is a read outside of it. -/
def splitTextRecursive (chunkSize chunkOverlap : ℕ) (flength : Text → ℕ) :
    List Text → Text → Except Fault (List Text)
  | [], _ => .error .outOfBounds
  | sep :: separators, text =>
    let best := pickBestSeparator text (sep :: separators)
    gather best.1 chunkSize chunkOverlap flength
      (fun s =>
        if best.2 = [] then .ok [s]
        else splitTextRecursive chunkSize chunkOverlap flength best.2 s)
      (splitText text best.1) [] []
termination_by separators => separators.length
decreasing_by exact pickFrom_length text _ sep separators

/-- `split_text_by_separators_recursively`. -/
def splitTextBySeparatorsRecursively (text : Text) (chunkSize chunkOverlap : ℕ)
    (separators : List Text) (lengthFunctionName : String) : Except Fault (List Text) := do
  checkChunkOverlap chunkSize chunkOverlap
  let flength ← lengthFunction lengthFunctionName
  splitTextRecursive chunkSize chunkOverlap flength separators text

end SplitText

end Ailoy
