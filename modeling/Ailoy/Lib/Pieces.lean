import Mathlib.Data.List.DropRight
import Mathlib.Data.List.Infix
import Mathlib.Data.List.TakeWhile

/-!
# Sequences cut at a separator

`split` cuts a sequence at the leftmost non-overlapping occurrences of a separator, `join` puts
pieces together with the separator between them, and `trim` drops what satisfies a predicate at both
ends. Joining what was split gives the sequence back (`join_split`). In a joined sequence, the
pieces from some point on begin behind the `lead` of those before it, and the join of a run of
pieces occurs there (`occurs_join`).
-/

namespace Pieces

variable {α : Type*}

/-! ## Joining -/

/-- The pieces with the separator between them. -/
def join (d : List α) : List (List α) → List α
  | [] => []
  | x :: xs => x ++ xs.flatMap (d ++ ·)

/-- The pieces with the separator behind each. -/
def lead (d : List α) (xs : List (List α)) : List α := xs.flatMap (· ++ d)

variable {d : List α} {xs ys : List (List α)}

@[simp] theorem join_singleton (x : List α) : join d [x] = x := by simp [join]

theorem lead_append : lead d (xs ++ ys) = lead d xs ++ lead d ys := List.flatMap_append

/-- The pieces behind the first ones come with a separator in front of each. -/
theorem join_append_flatMap (h : xs ≠ []) : join d (xs ++ ys) = join d xs ++ ys.flatMap (d ++ ·) := by
  cases xs with
  | nil => exact absurd rfl h
  | cons x xs => rw [List.cons_append, join, join, List.flatMap_append, List.append_assoc]

/-- Pieces with a separator in front of each are their join behind one separator. -/
theorem flatMap_eq (h : ys ≠ []) : ys.flatMap (d ++ ·) = d ++ join d ys := by
  cases ys with
  | nil => exact absurd rfl h
  | cons y ys => rw [List.flatMap_cons, join, List.append_assoc]

/-- Pieces with a separator behind each are their join before one separator. -/
theorem lead_eq (h : xs ≠ []) : lead d xs = join d xs ++ d := by
  induction xs with
  | nil => exact absurd rfl h
  | cons x xs ih =>
    cases xs with
    | nil => simp [lead]
    | cons y ys =>
      have hcons : lead d (x :: y :: ys) = x ++ d ++ lead d (y :: ys) := List.flatMap_cons
      have hjoin : join d (x :: y :: ys) = x ++ (y :: ys).flatMap (d ++ ·) := rfl
      rw [hcons, ih (List.cons_ne_nil _ _), hjoin, flatMap_eq (List.cons_ne_nil _ _)]
      simp only [List.append_assoc]

/-- Two runs of pieces, with a separator between them. -/
theorem join_append (hx : xs ≠ []) (hy : ys ≠ []) :
    join d (xs ++ ys) = join d xs ++ d ++ join d ys := by
  rw [join_append_flatMap hx, flatMap_eq hy, List.append_assoc]

/-- The last pieces of a joined sequence begin behind the lead of the others. -/
theorem join_append_lead (hy : ys ≠ []) : join d (xs ++ ys) = lead d xs ++ join d ys := by
  by_cases hx : xs = []
  · subst hx
    rfl
  · rw [join_append hx hy, lead_eq hx]

/-! ## Splitting -/

variable [DecidableEq α]

/-- The pieces of what is left: `skip` elements belong to an occurrence of the separator, and
`piece` is what the current piece has so far. -/
def splitFrom (d : List α) : ℕ → List α → List α → List (List α)
  | _, piece, [] => [piece]
  | skip + 1, piece, _ :: cs => splitFrom d skip piece cs
  | 0, piece, c :: cs =>
    if d <+: c :: cs then piece :: splitFrom d (d.length - 1) [] cs
    else splitFrom d 0 (piece ++ [c]) cs

/-- The pieces of a sequence. The empty sequence has none, and the empty separator cuts behind each
element. -/
def split (d s : List α) : List (List α) :=
  if s = [] then []
  else if d = [] then s.map fun c => [c]
  else splitFrom d 0 [] s

theorem splitFrom_ne_nil (d : List α) (skip : ℕ) (piece s : List α) :
    splitFrom d skip piece s ≠ [] := by
  induction s generalizing skip piece with
  | nil => simp [splitFrom]
  | cons c cs ih =>
    cases skip with
    | zero =>
      unfold splitFrom
      split_ifs
      · exact List.cons_ne_nil _ _
      · exact ih 0 _
    | succ skip => exact ih skip piece

/-- The pieces of what is left give it back, without what is skipped of it. -/
theorem join_splitFrom (hd : d ≠ []) {skip : ℕ} {piece s : List α} (hskip : skip ≤ s.length) :
    join d (splitFrom d skip piece s) = piece ++ s.drop skip := by
  induction s generalizing skip piece with
  | nil => simp [splitFrom]
  | cons c cs ih =>
    cases skip with
    | zero =>
      unfold splitFrom
      split_ifs with hprefix
      · -- The rest of the separator is skipped, and joining puts all of it back.
        obtain ⟨rest, hrest⟩ := hprefix
        have hlen : (d.length - 1) ≤ cs.length := by
          have := congrArg List.length hrest
          rw [List.length_append, List.length_cons] at this
          omega
        have hdrop : cs.drop (d.length - 1) = rest := by
          have hpos : 0 < d.length := List.length_pos_iff.mpr hd
          calc cs.drop (d.length - 1) = (c :: cs).drop d.length := by
                rw [← Nat.sub_add_cancel hpos, List.drop_succ_cons, Nat.add_sub_cancel]
            _ = rest := by rw [← hrest, List.drop_left]
        have hjoin := @ih (d.length - 1) [] hlen
        have hne := splitFrom_ne_nil d (d.length - 1) [] cs
        rw [join, flatMap_eq hne, hjoin, List.nil_append, hdrop, hrest, List.drop_zero]
      · rw [ih (Nat.zero_le _)]
        simp
    | succ skip =>
      have hle : skip ≤ cs.length := by simpa using hskip
      rw [splitFrom, ih hle, List.drop_succ_cons]

/-- Joining what was split gives the sequence back. -/
theorem join_split (d s : List α) : join d (split d s) = s := by
  unfold split
  split_ifs with hs hd
  · rw [hs]
    rfl
  · subst hd
    cases s with
    | nil => rfl
    | cons c cs => simp [join, List.flatMap_map]
  · rw [join_splitFrom hd (Nat.zero_le _), List.nil_append, List.drop_zero]

/-! ## Trimming -/

omit [DecidableEq α]

/-- The sequence without the elements at its ends that satisfy `p`, those behind first. -/
def trim (p : α → Bool) (s : List α) : List α := (s.rdropWhile p).dropWhile p

/-- What is dropped satisfies the predicate. -/
theorem trim_split (p : α → Bool) (s : List α) : ∃ front back, s = front ++ trim p s ++ back ∧
    (∀ c ∈ front, p c = true) ∧ ∀ c ∈ back, p c = true := by
  refine ⟨(s.rdropWhile p).takeWhile p, s.rtakeWhile p, ?_, ?_, ?_⟩
  · rw [trim, List.takeWhile_append_dropWhile, List.rdropWhile_append_rtakeWhile]
  · exact fun c hc => List.mem_takeWhile_imp hc
  · exact fun c hc => List.mem_rtakeWhile_imp hc

/-- What is left begins with an element that does not satisfy the predicate. -/
theorem head_trim {p : α → Bool} {s : List α} {c : α} {cs : List α} (h : trim p s = c :: cs) :
    p c = false := by
  have hhead := List.head?_dropWhile_not p (s.rdropWhile p)
  unfold trim at h
  rw [h] at hhead
  simpa using hhead

/-- Trimming makes no sequence longer. -/
theorem length_trim_le (p : α → Bool) (s : List α) : (trim p s).length ≤ s.length :=
  calc (trim p s).length ≤ (s.rdropWhile p).length := (List.dropWhile_suffix p).length_le
    _ ≤ s.length := (List.rdropWhile_prefix p s).length_le

/-- What satisfies the predicate in front of a sequence is dropped. -/
theorem trim_append {p : α → Bool} {front : List α} (hfront : ∀ c ∈ front, p c = true)
    (s : List α) : trim p (front ++ s) = trim p s := by
  unfold trim
  by_cases hs : s.rdropWhile p = []
  · have hall := List.rdropWhile_eq_nil_iff.mp hs
    have hboth : (front ++ s).rdropWhile p = [] :=
      List.rdropWhile_eq_nil_iff.mpr fun c hc => (List.mem_append.mp hc).elim (hfront c) (hall c)
    rw [hs, hboth]
  · have hback : (front ++ s).rdropWhile p = front ++ s.rdropWhile p := by
      unfold List.rdropWhile at hs ⊢
      rw [List.reverse_append, List.dropWhile_append, if_neg (by simpa using hs),
        List.reverse_append, List.reverse_reverse]
    rw [hback, List.dropWhile_append_of_pos hfront]

/-! ## Places -/

/-- The sequence `chunk` occurs in `text` at the place `start`. -/
def Occurs (text chunk : List α) (start : ℕ) : Prop :=
  ∃ front back, text = front ++ chunk ++ back ∧ front.length = start

/-- The elements of an occurrence. -/
theorem Occurs.getElem? {text chunk : List α} {start i : ℕ} (h : Occurs text chunk start)
    (hi : i < chunk.length) : text[start + i]? = chunk[i]? := by
  obtain ⟨front, back, rfl, rfl⟩ := h
  rw [List.append_assoc, List.getElem?_append_right (by omega), Nat.add_sub_cancel_left,
    List.getElem?_append_left hi]

/-- An occurrence inside an occurrence. -/
theorem Occurs.trans {text chunk part : List α} {start start' : ℕ} (h : Occurs text chunk start)
    (h' : Occurs chunk part start') : Occurs text part (start + start') := by
  obtain ⟨front, back, rfl, rfl⟩ := h
  obtain ⟨front', back', rfl, rfl⟩ := h'
  exact ⟨front ++ front', back' ++ back, by simp, by simp⟩

theorem Occurs.le {text chunk : List α} {start : ℕ} (h : Occurs text chunk start) :
    start + chunk.length ≤ text.length := by
  obtain ⟨front, back, rfl, rfl⟩ := h
  simp

/-- A run of pieces occurs in the joined sequence, behind the lead of those before it. -/
theorem occurs_join (xs zs : List (List α)) (hy : ys ≠ []) :
    Occurs (join d (xs ++ (ys ++ zs))) (join d ys) (lead d xs).length := by
  refine ⟨lead d xs, zs.flatMap (d ++ ·), ?_, rfl⟩
  have hne : ys ++ zs ≠ [] := by simp [hy]
  rw [join_append_lead hne, join_append_flatMap hy, List.append_assoc]

end Pieces
