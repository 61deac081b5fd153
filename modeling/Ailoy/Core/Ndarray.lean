import Ailoy.Core.ValueEncoding

/-!
# The view of an ndarray as a vector

`ndarray_t` of `core/include/value.hpp` and its conversion to a `std::vector<t>`. The conversion
reads the data as numbers of `sizeof(t)` bytes, as many as `size()` has room for, whatever the
`dtype` of the array is and whatever the length of its data. `size()` multiplies the dimensions as
`int`s.
-/

namespace Ailoy

/-- `ndarray_t`. -/
structure Ndarray where
  shape : List UInt64
  dtype : DLDataType
  data : List UInt8
  deriving DecidableEq

/-- `kDLFloat` with 32 bits. -/
def float32 : DLDataType := ⟨2, 32, 1⟩

/-- Numbers of `w` bytes, one behind the other. -/
def readWords (w : ℕ) : ℕ → List UInt8 → Except Fault (List ℕ)
  | 0, _ => .ok []
  | n + 1, it => do
    let (word, it) ← readUint w it
    let words ← readWords w n it
    return word :: words

/-- The number of `w` bytes at the place `i`. -/
def wordAt (w : ℕ) (data : List UInt8) (i : ℕ) : ℕ := leNat ((data.drop (w * i)).take w)

namespace Ndarray

variable (a : Ndarray)

/-- `itemsize`. -/
def itemsize : ℕ := (a.dtype.bits.toNat * a.dtype.lanes.toNat + 7) / 8

/-- The product of the dimensions as an `int`. -/
def count : Int32 := a.shape.foldl (fun acc dim => acc * Int32.ofNat dim.toNat) 1

/-- `size`. -/
def size : ℕ := (a.count.toInt * a.itemsize % 2 ^ 64).toNat

/-- `operator std::vector<t>`, for a `t` of `w` bytes. -/
def asVector (w : ℕ) : Except Fault (List ℕ) := readWords w (a.size / w) a.data

/-- `shape_str`. -/
def shapeStr : String :=
  "[" ++ String.intercalate ", " (a.shape.map fun dim => toString dim.toNat) ++ "]"

end Ndarray

/-! ## What is read -/

/-- The numbers behind the first one. -/
theorem map_wordAt_succ (w n : ℕ) (data : List UInt8) :
    (List.range (n + 1)).map (wordAt w data) =
      leNat (data.take w) :: (List.range n).map (wordAt w (data.drop w)) := by
  rw [List.range_succ_eq_map, List.map_cons, List.map_map]
  refine congrArg (List.cons _) (List.map_congr_left fun i _ => ?_)
  show wordAt w data (i + 1) = wordAt w (data.drop w) i
  unfold wordAt
  rw [List.drop_drop, Nat.mul_succ, Nat.add_comm]

/-- The numbers are read when their bytes are there. -/
theorem readWords_of_le {w n : ℕ} {data : List UInt8} (h : w * n ≤ data.length) :
    readWords w n data = .ok ((List.range n).map (wordAt w data)) := by
  induction n generalizing data with
  | zero => rfl
  | succ n ih =>
    have hsum : w * (n + 1) = w * n + w := Nat.mul_succ w n
    have hw : w ≤ data.length := by omega
    have hread : readUint w data = .ok (leNat (data.take w), data.drop w) := by
      unfold readUint readBytes
      rw [if_pos hw]
      rfl
    have hrest : w * n ≤ (data.drop w).length := by
      rw [List.length_drop]
      omega
    rw [readWords, hread, Except.ok_bind]
    dsimp only
    rw [ih hrest, map_wordAt_succ]
    rfl

/-- Otherwise the read leaves the data. -/
theorem readWords_of_lt {w n : ℕ} {data : List UInt8} (h : data.length < w * n) :
    readWords w n data = .error .outOfBounds := by
  induction n generalizing data with
  | zero => exact absurd h (Nat.not_lt_zero _)
  | succ n ih =>
    have hsum : w * (n + 1) = w * n + w := Nat.mul_succ w n
    unfold readWords readUint readBytes
    by_cases hw : w ≤ data.length
    · have hrest : (data.drop w).length < w * n := by
        rw [List.length_drop]
        omega
      rw [if_pos hw]
      simp only [Except.ok_bind, pure, Except.pure, ih hrest, Except.error_bind]
    · rw [if_neg hw]
      rfl

/-- The bytes of a number that bytes stand for. -/
theorem leBytes_leNat (bytes : List UInt8) : leBytes bytes.length (leNat bytes) = bytes := by
  induction bytes with
  | nil => rfl
  | cons b bytes ih =>
    have hb : b.toNat < 256 := b.toNat_lt
    have hdiv : (b.toNat + 256 * leNat bytes) / 256 = leNat bytes := by omega
    have hbyte : UInt8.ofNat (b.toNat + 256 * leNat bytes) = b := by
      rw [← UInt8.toNat_inj, UInt8.toNat_ofNat']
      omega
    rw [List.length_cons, leNat, leBytes, hdiv, hbyte, ih]

/-- The numbers give the data back. -/
theorem flatMap_leBytes_words {w n : ℕ} {data : List UInt8} (h : data.length = w * n) :
    ((List.range n).map (wordAt w data)).flatMap (leBytes w) = data := by
  induction n generalizing data with
  | zero => exact (List.eq_nil_of_length_eq_zero h).symm
  | succ n ih =>
    have hsum : w * (n + 1) = w * n + w := Nat.mul_succ w n
    have hrest : (data.drop w).length = w * n := by
      rw [List.length_drop]
      omega
    have htake : (data.take w).length = w := by
      rw [List.length_take]
      omega
    have hfirst : leBytes w (leNat (data.take w)) = data.take w := by
      calc leBytes w (leNat (data.take w)) = leBytes (data.take w).length (leNat (data.take w)) := by
            rw [htake]
        _ = data.take w := leBytes_leNat _
    rw [map_wordAt_succ, List.flatMap_cons, hfirst, ih hrest, List.take_append_drop]

theorem wordAt_lt (w : ℕ) (data : List UInt8) (i : ℕ) : wordAt w data i < 256 ^ w :=
  (leNat_lt _).trans_le (Nat.pow_le_pow_right (by decide) (List.length_take_le _ _))

/-- Numbers that fit are read from their bytes. -/
theorem words_flatMap_leBytes {w : ℕ} {words : List ℕ} (h : ∀ k ∈ words, k < 256 ^ w) :
    (List.range words.length).map (wordAt w (words.flatMap (leBytes w))) = words := by
  induction words with
  | nil => rfl
  | cons k words ih =>
    have hk : k < 256 ^ w := h k List.mem_cons_self
    have hfirst : leNat ((leBytes w k ++ words.flatMap (leBytes w)).take w) = k := by
      rw [List.take_left' (leBytes_length w k), leNat_leBytes, Nat.mod_eq_of_lt hk]
    rw [List.length_cons, map_wordAt_succ, List.flatMap_cons, hfirst,
      List.drop_left' (leBytes_length w k), ih fun k' hk' => h k' (List.mem_cons_of_mem k hk')]

namespace Ndarray

variable {a : Ndarray}

/-- The size of an array of one dimension, which fits an `int`. -/
theorem size_vector {d : ℕ} (hd : d < 2 ^ 31) (h : a.shape = [UInt64.ofNat d]) :
    a.size = d * a.itemsize := by
  have hcount : a.count.toInt = d := by
    unfold count
    have hsize : UInt64.size = 2 ^ 64 := rfl
    rw [h, List.foldl_cons, List.foldl_nil, UInt64.toNat_ofNat_of_lt' (by omega)]
    have hone : (1 : Int32) * Int32.ofNat d = Int32.ofNat d := Int32.one_mul _
    rw [hone, Int32.toInt_ofNat_of_lt hd]
  have hitem : a.itemsize < 2 ^ 32 := by
    have hbits := a.dtype.bits.toNat_lt
    have hlanes := a.dtype.lanes.toNat_lt
    have hmul : a.dtype.bits.toNat * a.dtype.lanes.toNat < 2 ^ 8 * 2 ^ 16 :=
      Nat.mul_lt_mul'' hbits hlanes
    unfold itemsize
    omega
  have hprod : d * a.itemsize < 2 ^ 31 * 2 ^ 32 := Nat.mul_lt_mul'' hd hitem
  unfold size
  rw [hcount]
  have hcast : (d : ℤ) * (a.itemsize : ℤ) = ((d * a.itemsize : ℕ) : ℤ) := by push_cast; rfl
  rw [hcast]
  omega

end Ndarray

end Ailoy
