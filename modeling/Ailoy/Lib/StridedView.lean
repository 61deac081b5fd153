import Mathlib.Algebra.BigOperators.Group.List.Basic
import Mathlib.Algebra.GroupWithZero.Nat
import Mathlib.Algebra.Order.Ring.Int
import Mathlib.Tactic.Ring

/-!
# Strided views of a buffer

An array of any rank in a buffer: along each dimension it has a size and a stride, and each of its
elements is `w` units of the buffer, at the place where the strides lead. `gather` is the elements in
row-major order. They are as they stand in the buffer, one behind the other, when the strides are
those of the order itself (`gather_of_rowMajor`). A view for which this is so whatever the buffer
holds has these strides, in each dimension of more than one place (`rowMajor_of_gather`).
-/

/-- The sizes and the strides of the dimensions, the outermost one first. -/
abbrev StridedView := List (ℕ × ℤ)

namespace StridedView

/-- The number of elements. -/
def count (dims : StridedView) : ℕ := (dims.map Prod.fst).prod

section Elements

variable {β : Type*}

/-- The `n` units from a place of a buffer on. -/
def units (buffer : List β) (pos : ℤ) (n : ℕ) : List β := (buffer.drop pos.toNat).take n

/-- The elements in row-major order, the first of them at a place of the buffer. -/
def gather (w : ℕ) (buffer : List β) : StridedView → ℤ → List β
  | [], pos => units buffer pos w
  | (n, s) :: dims, pos =>
    (List.range n).flatMap fun (i : ℕ) => gather w buffer dims (pos + (i : ℤ) * s)

end Elements

/-- All elements lie in a buffer of `len` units. -/
def InBounds (w len : ℕ) : StridedView → ℤ → Prop
  | [], pos => 0 ≤ pos ∧ pos + w ≤ len
  | (n, s) :: dims, pos => ∀ i < n, InBounds w len dims (pos + (i : ℤ) * s)

instance decidableInBounds (w len : ℕ) :
    ∀ (dims : StridedView) (pos : ℤ), Decidable (InBounds w len dims pos)
  | [], _ => inferInstanceAs (Decidable (_ ∧ _))
  | (n, _) :: dims, _ => @Nat.decidableBallLT n _ fun _ _ => decidableInBounds w len dims _

/-- The strides are those of the row-major order, but for dimensions in which there is one place. -/
def RowMajor (w : ℕ) : StridedView → Prop
  | [] => True
  | (n, s) :: dims => (n ≤ 1 ∨ s = (count dims * w : ℕ)) ∧ RowMajor w dims

variable {β : Type*} {w len n : ℕ} {s pos : ℤ} {dims : StridedView} {buffer : List β}

@[simp] theorem count_nil : count [] = 1 := rfl

@[simp] theorem count_cons : count ((n, s) :: dims) = n * count dims := rfl

/-- There are elements when there is a place in each dimension. -/
theorem count_cons_ne_zero (h : count ((n, s) :: dims) ≠ 0) : n ≠ 0 ∧ count dims ≠ 0 :=
  Nat.mul_ne_zero_iff.mp h

theorem length_units (hpos : 0 ≤ pos) (h : pos + n ≤ buffer.length) :
    (units buffer pos n).length = n := by
  unfold units
  rw [List.length_take, List.length_drop]
  omega

/-- As many units as were asked for are there only when they are in the buffer. -/
theorem end_le_of_length_units (hpos : 0 ≤ pos) (hle : pos ≤ buffer.length)
    (h : (units buffer pos n).length = n) : pos + n ≤ buffer.length := by
  rw [units, List.length_take, List.length_drop] at h
  omega

section Blocks

variable {f : ℕ → List β} {m i : ℕ}

/-- The length of blocks of one length. -/
theorem length_flatMap_range (hf : ∀ i < n, (f i).length = m) :
    ((List.range n).flatMap f).length = n * m := by
  have hlen : (List.range n).map (fun i => (f i).length) = List.replicate n m := by
    rw [List.eq_replicate_iff, List.length_map, List.length_range]
    refine ⟨rfl, fun l hl => ?_⟩
    obtain ⟨i, hi, rfl⟩ := List.mem_map.mp hl
    exact hf i (List.mem_range.mp hi)
  rw [List.length_flatMap, hlen, List.sum_replicate, nsmul_eq_mul, Nat.cast_id]

/-- The block at a place of them. -/
theorem take_drop_flatMap_range (hf : ∀ i < n, (f i).length = m) (hi : i < n) :
    (((List.range n).flatMap f).drop (i * m)).take m = f i := by
  induction n with
  | zero => exact absurd hi (Nat.not_lt_zero _)
  | succ n ih =>
    have hprev : ∀ i < n, (f i).length = m := fun i hi => hf i (Nat.lt_succ_of_lt hi)
    have hlen := length_flatMap_range hprev
    rw [List.range_succ, List.flatMap_append, List.flatMap_singleton]
    rcases Nat.lt_succ_iff_lt_or_eq.mp hi with hlt | rfl
    · have hblock : i * m + m ≤ n * m := by
        rw [← Nat.succ_mul]
        exact Nat.mul_le_mul_right _ hlt
      rw [List.drop_append_of_le_length (by omega), List.take_append_of_le_length, ih hprev hlt]
      rw [List.length_drop]
      omega
    · rw [← hlen, List.drop_left, ← hf i hi, List.take_length]

end Blocks

/-- Units one behind the other are blocks of them. -/
theorem flatMap_units (buffer : List β) (hpos : 0 ≤ pos) (m n : ℕ) :
    ((List.range n).flatMap fun (i : ℕ) => units buffer (pos + (i : ℤ) * (m : ℤ)) m) =
      units buffer pos (n * m) := by
  induction n with
  | zero =>
    unfold units
    rw [Nat.zero_mul, List.take_zero]
    rfl
  | succ n ih =>
    have hplace : (pos + (n : ℤ) * (m : ℤ)).toNat = pos.toNat + n * m := by
      have hcast : (n : ℤ) * (m : ℤ) = ((n * m : ℕ) : ℤ) := (Nat.cast_mul n m).symm
      omega
    rw [List.range_succ, List.flatMap_append, ih, List.flatMap_singleton, Nat.succ_mul]
    unfold units
    rw [List.take_add, List.drop_drop, hplace]

/-! ## Views without elements -/

theorem gather_of_count_eq_zero (buffer : List β) (pos : ℤ) (h : count dims = 0) :
    gather w buffer dims pos = [] := by
  induction dims generalizing pos with
  | nil => exact absurd h Nat.one_ne_zero
  | cons dim dims ih =>
    obtain ⟨n, s⟩ := dim
    rw [gather, List.flatMap_eq_nil_iff]
    intro i hi
    have hn : n ≠ 0 := Nat.ne_zero_of_lt (List.mem_range.mp hi)
    exact ih _ ((Nat.mul_eq_zero.mp h).resolve_left hn)

theorem inBounds_of_count_eq_zero (pos : ℤ) (h : count dims = 0) : InBounds w len dims pos := by
  induction dims generalizing pos with
  | nil => exact absurd h Nat.one_ne_zero
  | cons dim dims ih =>
    obtain ⟨n, s⟩ := dim
    intro i hi
    exact ih _ ((Nat.mul_eq_zero.mp h).resolve_left (Nat.ne_zero_of_lt hi))

/-! ## Views in bounds -/

namespace InBounds

/-- The first elements of a view are there. -/
theorem first (h : InBounds w len ((n, s) :: dims) pos) (hn : n ≠ 0) : InBounds w len dims pos := by
  have hzero := h 0 (Nat.pos_of_ne_zero hn)
  rwa [Nat.cast_zero, zero_mul, add_zero] at hzero

/-- The first element of a view that has one is in the buffer. -/
theorem start (h : InBounds w len dims pos) (hcount : count dims ≠ 0) : 0 ≤ pos ∧ pos + w ≤ len := by
  induction dims with
  | nil => exact h
  | cons dim dims ih =>
    obtain ⟨n, s⟩ := dim
    obtain ⟨hn, hdims⟩ := count_cons_ne_zero hcount
    exact ih (h.first hn) hdims

end InBounds

theorem length_gather (h : InBounds w buffer.length dims pos) :
    (gather w buffer dims pos).length = count dims * w := by
  induction dims generalizing pos with
  | nil => rw [gather, length_units h.1 h.2, count_nil, one_mul]
  | cons dim dims ih =>
    obtain ⟨n, s⟩ := dim
    rw [gather, length_flatMap_range fun i hi => ih (h i hi), count_cons, mul_assoc]

/-! ## The row-major order -/

/-- A view in row-major order is in bounds when its last unit is. -/
theorem RowMajor.inBounds (h : RowMajor w dims) (hpos : 0 ≤ pos)
    (hend : pos + (count dims * w : ℕ) ≤ len) : InBounds w len dims pos := by
  induction dims generalizing pos with
  | nil =>
    rw [count_nil, one_mul] at hend
    exact ⟨hpos, hend⟩
  | cons dim dims ih =>
    obtain ⟨n, s⟩ := dim
    intro i hi
    rw [count_cons, mul_assoc] at hend
    have hone : count dims * w ≤ n * (count dims * w) := Nat.le_mul_of_pos_left _ (by omega)
    rcases h.1 with hn | rfl
    · obtain rfl : i = 0 := by omega
      rw [Nat.cast_zero, zero_mul, add_zero]
      exact ih h.2 hpos (by omega)
    · have hblock : i * (count dims * w) + count dims * w ≤ n * (count dims * w) := by
        rw [← Nat.succ_mul]
        exact Nat.mul_le_mul_right _ hi
      rw [← Nat.cast_mul]
      exact ih h.2 (by omega) (by omega)

/-- In row-major order, the elements are one behind the other. -/
theorem gather_of_rowMajor (hrow : RowMajor w dims) (hcount : count dims ≠ 0)
    (h : InBounds w buffer.length dims pos) :
    gather w buffer dims pos = units buffer pos (count dims * w) := by
  induction dims generalizing pos with
  | nil => rw [gather, count_nil, one_mul]
  | cons dim dims ih =>
    obtain ⟨n, s⟩ := dim
    obtain ⟨hn, hdims⟩ := count_cons_ne_zero hcount
    have hblocks : gather w buffer ((n, s) :: dims) pos =
        (List.range n).flatMap fun (i : ℕ) => units buffer (pos + (i : ℤ) * s) (count dims * w) := by
      rw [gather]
      exact List.flatMap_congr fun i hi => ih hrow.2 hdims (h i (List.mem_range.mp hi))
    rw [hblocks, count_cons, mul_assoc]
    rcases hrow.1 with hle | rfl
    · obtain rfl : n = 1 := by omega
      rw [List.range_one, List.flatMap_singleton, Nat.cast_zero, zero_mul, add_zero, one_mul]
    · exact flatMap_units buffer (h.start hcount).1 _ _

/-- And the last of them is in the buffer. -/
theorem InBounds.end_le (h : InBounds w len dims pos) (hrow : RowMajor w dims)
    (hcount : count dims ≠ 0) : pos + (count dims * w : ℕ) ≤ len := by
  obtain ⟨hpos, hfirst⟩ := h.start hcount
  obtain ⟨buffer, rfl⟩ : ∃ buffer : List Unit, buffer.length = len :=
    ⟨List.replicate len (), List.length_replicate⟩
  have hlen := length_gather h
  rw [gather_of_rowMajor hrow hcount h] at hlen
  exact end_le_of_length_units hpos (by omega) hlen

/-- A buffer that holds one unit at a place, and another one everywhere else. -/
def marked (a b : β) (len place : ℕ) : List β := (List.replicate len a).set place b

theorem marked_getElem? {a b : β} {i k : ℕ} (hk : k < len) :
    (marked a b len i)[k]? = some (if i = k then b else a) := by
  unfold marked
  rw [List.getElem?_set, List.length_replicate, List.getElem?_replicate, if_pos hk]
  by_cases hik : i = k
  · rw [if_pos hik, if_pos (hik ▸ hk), if_pos hik]
  · rw [if_neg hik, if_neg hik]

/-- Two places at which every buffer holds the same units are one place. -/
theorem eq_of_units_eq {a b : β} {p q : ℤ} (hab : a ≠ b) (hn : n ≠ 0) (hp : 0 ≤ p) (hq : 0 ≤ q)
    (hplen : p + n ≤ len) (hqlen : q + n ≤ len)
    (h : ∀ buffer : List β, buffer.length = len → units buffer p n = units buffer q n) : p = q := by
  have hbuffer : (marked a b len p.toNat).length = len := by
    rw [marked, List.length_set, List.length_replicate]
  have hfirst : ∀ r : ℤ, 0 ≤ r → r + n ≤ len →
      (units (marked a b len p.toNat) r n)[0]? = some (if p.toNat = r.toNat then b else a) := by
    intro r hr hrlen
    rw [units, List.getElem?_take_of_lt (Nat.pos_of_ne_zero hn), List.getElem?_drop, add_zero]
    exact marked_getElem? (by omega)
  have hunits := congrArg (fun us : List β => us[0]?) (h _ hbuffer)
  rw [hfirst p hp hplen, hfirst q hq hqlen, if_pos rfl] at hunits
  by_contra hne
  rw [if_neg (by omega)] at hunits
  exact hab (Option.some.inj hunits).symm

/-- A view whose elements are one behind the other in every buffer is in row-major order. -/
theorem rowMajor_of_gather {a b : β} (hab : a ≠ b) (hw : w ≠ 0) (hcount : count dims ≠ 0)
    (hin : InBounds w len dims pos)
    (h : ∀ buffer : List β, buffer.length = len →
      gather w buffer dims pos = units buffer pos (count dims * w)) : RowMajor w dims := by
  induction dims with
  | nil => trivial
  | cons dim dims ih =>
    obtain ⟨n, s⟩ := dim
    obtain ⟨hn, hdims⟩ := count_cons_ne_zero hcount
    obtain ⟨hpos, hfirst⟩ := hin.start hcount
    have hend : pos + (n * (count dims * w) : ℕ) ≤ len := by
      have hbuffer : (List.replicate len a).length = len := List.length_replicate
      have hlen := length_gather (hbuffer.symm ▸ hin : InBounds w (List.replicate len a).length _ _)
      rw [h _ hbuffer, count_cons, mul_assoc] at hlen
      have hle := end_le_of_length_units hpos (by omega) hlen
      omega
    have hplace : ∀ i < n, 0 ≤ pos + (i : ℤ) * (count dims * w : ℕ) ∧
        pos + (i : ℤ) * (count dims * w : ℕ) + (count dims * w : ℕ) ≤ len := by
      intro i hi
      have hle : i * (count dims * w) + count dims * w ≤ n * (count dims * w) := by
        rw [← Nat.succ_mul]
        exact Nat.mul_le_mul_right _ hi
      rw [← Nat.cast_mul]
      omega
    -- Each block of the elements is the block of the units at its place.
    have hblock : ∀ buffer : List β, buffer.length = len → ∀ i < n,
        gather w buffer dims (pos + (i : ℤ) * s) =
          units buffer (pos + (i : ℤ) * (count dims * w : ℕ)) (count dims * w) := by
      rintro buffer rfl i hi
      have hall := h buffer rfl
      rw [count_cons, mul_assoc, ← flatMap_units buffer hpos, gather] at hall
      rw [← take_drop_flatMap_range (fun i hi => length_gather (hin i hi)) hi, hall,
        take_drop_flatMap_range (fun i hi => length_units (hplace i hi).1 (hplace i hi).2) hi]
    have hrow : RowMajor w dims := by
      refine ih hdims (hin.first hn) fun buffer hlen => ?_
      have hzero := hblock buffer hlen 0 (Nat.pos_of_ne_zero hn)
      rwa [Nat.cast_zero, zero_mul, zero_mul, add_zero] at hzero
    refine ⟨?_, hrow⟩
    by_cases hle : n ≤ 1
    · exact .inl hle
    -- The second block is at the stride, and where the first one ends.
    · have hone : 1 < n := Nat.lt_of_not_le hle
      have hsame : pos + ((1 : ℕ) : ℤ) * s = pos + ((1 : ℕ) : ℤ) * (count dims * w : ℕ) := by
        have hstart := (hin 1 hone).start hdims
        refine eq_of_units_eq hab (Nat.mul_ne_zero hdims hw) hstart.1 (hplace 1 hone).1 ?_
          (hplace 1 hone).2 fun buffer hlen => ?_
        · exact (hin 1 hone).end_le hrow hdims
        · rw [← hblock buffer hlen 1 hone]
          subst hlen
          exact (gather_of_rowMajor hrow hdims (hin 1 hone)).symm
      refine .inr ?_
      rw [Nat.cast_one, one_mul, one_mul] at hsame
      exact Int.add_left_cancel hsame

end StridedView
