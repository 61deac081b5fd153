import Mathlib.Data.List.Basic

/-!
# Sequences with pieces left out

The pieces of a sequence, each kept or lost. What is `kept` is the whole sequence but for a tail of
`k` equal elements exactly when `k` elements are lost and the sequence consists of these elements
alone from the first lost one on (`whole_eq_kept_append_iff`).
-/

namespace Erasure

variable {α : Type*}

/-- The sequence. -/
def whole (ps : List (List α × Bool)) : List α := ps.flatMap (·.1)

/-- The sequence of the pieces that are kept. -/
def kept (ps : List (List α × Bool)) : List α := (ps.filter (·.2)).flatMap (·.1)

/-- The sequence of the pieces that are lost. -/
def lost (ps : List (List α × Bool)) : List α := (ps.filter fun p => !p.2).flatMap (·.1)

/-- The pieces from the first lost element on. -/
def fromLost (ps : List (List α × Bool)) : List (List α × Bool) :=
  ps.dropWhile fun p => p.2 || p.1.isEmpty

variable {ps : List (List α × Bool)} {p : List α}

@[simp] theorem whole_cons (kind : Bool) : whole ((p, kind) :: ps) = p ++ whole ps := rfl

@[simp] theorem kept_cons_true : kept ((p, true) :: ps) = p ++ kept ps := by simp [kept]

@[simp] theorem kept_cons_false : kept ((p, false) :: ps) = kept ps := by simp [kept]

@[simp] theorem lost_cons_true : lost ((p, true) :: ps) = lost ps := by simp [lost]

@[simp] theorem lost_cons_false : lost ((p, false) :: ps) = p ++ lost ps := by simp [lost]

theorem kept_append (ps qs : List (List α × Bool)) : kept (ps ++ qs) = kept ps ++ kept qs := by
  simp [kept]

theorem whole_append (ps qs : List (List α × Bool)) : whole (ps ++ qs) = whole ps ++ whole qs := by
  simp [whole]

/-- Pieces that are all lost. -/
theorem whole_map_false (xs : List (List α)) : whole (xs.map fun p => (p, false)) = xs.flatten := by
  induction xs with
  | nil => rfl
  | cons p xs ih => rw [List.map_cons, whole_cons, ih, List.flatten_cons]

theorem kept_map_false (xs : List (List α)) : kept (xs.map fun p => (p, false)) = [] := by
  induction xs with
  | nil => rfl
  | cons p xs ih => rw [List.map_cons, kept_cons_false, ih]

/-- What is kept is a part of the sequence. -/
theorem kept_sublist (ps : List (List α × Bool)) : (kept ps).Sublist (whole ps) := by
  induction ps with
  | nil => exact .slnil
  | cons q ps ih =>
    obtain ⟨p, kind⟩ := q
    cases kind with
    | true =>
      rw [whole_cons, kept_cons_true]
      exact (List.append_sublist_append_left p).mpr ih
    | false =>
      rw [whole_cons, kept_cons_false]
      exact ih.trans (List.sublist_append_right p _)

/-- What is not kept is lost. -/
theorem length_whole (ps : List (List α × Bool)) :
    (whole ps).length = (kept ps).length + (lost ps).length := by
  induction ps with
  | nil => rfl
  | cons q ps ih =>
    obtain ⟨p, kind⟩ := q
    cases kind with
    | true =>
      simp only [whole_cons, kept_cons_true, lost_cons_true, List.length_append]
      omega
    | false =>
      simp only [whole_cons, kept_cons_false, lost_cons_false, List.length_append]
      omega

/-- When something is left out at the front and equal elements make up for it at the end, all
elements are equal to them: each stands where an element behind it stood. -/
theorem eq_of_sublist {a : α} {k : ℕ} {u w : List α} (hp : p ≠ []) (hsub : u.Sublist w)
    (h : p ++ w = u ++ List.replicate k a) : ∀ b ∈ p ++ w, b = a := by
  induction u generalizing p w with
  | nil =>
    rw [h, List.nil_append]
    exact fun b hb => List.eq_of_mem_replicate hb
  | cons b u ih =>
    obtain ⟨c, p, rfl⟩ := List.exists_cons_of_ne_nil hp
    rw [List.cons_append, List.cons_append, List.cons.injEq] at h
    obtain ⟨rfl, h⟩ := h
    have hmem : c ∈ w := hsub.subset List.mem_cons_self
    have hrest : ∀ d ∈ p ++ w, d = a := by
      by_cases hempty : p = []
      · -- The next element is the first one of `w`.
        subst hempty
        obtain ⟨d, w, rfl⟩ := List.exists_cons_of_ne_nil (List.ne_nil_of_mem hmem)
        exact ih (p := [d]) (List.cons_ne_nil _ _) hsub.tail h
      · exact ih hempty ((List.sublist_cons_self c u).trans hsub) h
    intro d hd
    rcases List.mem_cons.mp hd with rfl | hd
    · exact hrest d (List.mem_append_right _ hmem)
    · exact hrest d hd

/-- What is kept and `k` elements `a` are the sequence exactly when `k` elements are lost, and from
the first of them on all elements are `a`. -/
theorem whole_eq_kept_append_iff {a : α} {k : ℕ} (ps : List (List α × Bool)) :
    whole ps = kept ps ++ List.replicate k a ↔
      (lost ps).length = k ∧ ∀ b ∈ whole (fromLost ps), b = a := by
  induction ps with
  | nil =>
    constructor
    · intro h
      exact ⟨(congrArg List.length h).trans (by simp [kept]), by simp [fromLost, whole]⟩
    · rintro ⟨rfl, -⟩
      rfl
  | cons q ps ih =>
    obtain ⟨p, kind⟩ := q
    cases kind with
    | true =>
      -- A piece that is kept stands in front on both sides.
      rw [whole_cons, kept_cons_true, lost_cons_true, List.append_assoc, List.append_cancel_left_eq,
        ih]
      simp [fromLost]
    | false =>
      by_cases hempty : p = []
      · subst hempty
        simpa [fromLost] using ih
      · -- The first piece that is lost: from here on the whole sequence counts.
        have hfrom : fromLost ((p, false) :: ps) = (p, false) :: ps := by simp [fromLost, hempty]
        rw [hfrom, whole_cons, kept_cons_false, lost_cons_false, List.length_append]
        constructor
        · intro h
          have hlength := congrArg List.length h
          rw [List.length_append, List.length_append, List.length_replicate, length_whole] at hlength
          exact ⟨by omega, eq_of_sublist hempty (kept_sublist ps) h⟩
        · rintro ⟨rfl, hall⟩
          have hkept : kept ps = List.replicate (kept ps).length a :=
            List.eq_replicate_of_mem fun b hb =>
              hall b (List.mem_append_right p ((kept_sublist ps).subset hb))
          rw [List.eq_replicate_of_mem hall, hkept, List.replicate_append_replicate,
            List.length_append, length_whole, Nat.add_left_comm]

end Erasure
