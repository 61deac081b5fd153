import Ailoy.Core.Ndarray
import Ailoy.Core.ValueRoundTrip

/-!
# Which ndarrays are safe to read

`ndarray_t::from_nlohmann_json` takes the rank, the dimensions, the `dtype` and the size of the data
from the sender, and compares none of them with another or with the binary. `SafeToRead` is what the
code that reads such an array relies on. A binary is either too short for its header, or a
`ndarrayLayout` (`header_cases`). From there, `safeToRead_iff` says what the header has to announce.
The conversion to a vector counts the elements with an `int`, and `size_eq_iff` says when that is the
number of the elements.
-/

namespace Ailoy

open Value (ndarrayLayout ndarrayFromNlohmannJson_layout)

namespace Ndarray

variable (a : Ndarray)

/-- The array as a value. -/
def value : Value := .ndarray a.shape a.dtype a.data

/-- The product of the dimensions. -/
def product : ℕ := (a.shape.map UInt64.toNat).prod

/-- The data has as many bytes as the shape and the `dtype` say. -/
def Fits : Prop := a.data.length = a.product * a.itemsize

/-- The elements can be counted with an `int`, or have no bytes. -/
def Countable : Prop := a.itemsize = 0 ∨ a.product < 2 ^ 31

/-- Every conversion to a vector gives the numbers that the data consists of, and no others. -/
def Converts : Prop := ∀ w, 0 < w →
  a.asVector w = .ok ((List.range (a.data.length / w)).map (wordAt w a.data))

end Ndarray

/-- The binary is refused, or it becomes an array that is safe to read. -/
def SafeToRead (j : List UInt8) : Prop :=
  (∃ what, ndarrayFromNlohmannJson j = .error (.exception what)) ∨
    ∃ a : Ndarray, ndarrayFromNlohmannJson j = .ok a.value ∧ a.Fits ∧ a.Converts

/-- The binary has a whole header. The size of the data that it announces is one that no vector has,
or all of the data is there and is what the shape and the `dtype` say, and its elements can be
counted. -/
def HonestBinary (j : List UInt8) : Prop :=
  ∃ (shape : List UInt64) (dtype : DLDataType) (len : ℕ) (rest : List UInt8),
    shape.length < 2 ^ 32 ∧ (∀ v ∈ shape, v.toNat < 2 ^ 32) ∧ len < 2 ^ 64 ∧
    j = ndarrayLayout shape dtype len rest ∧
    (2 ^ 63 ≤ len ∨ len ≤ rest.length ∧ (⟨shape, dtype, rest.take len⟩ : Ndarray).Fits ∧
      (⟨shape, dtype, rest.take len⟩ : Ndarray).Countable)

/-! ## The number of the elements -/

namespace Ndarray

variable {a : Ndarray}

/-- The product as an `int` is the product modulo `2^32`. -/
theorem count_eq : a.count = Int32.ofNat a.product := by
  have hfold : ∀ (shape : List UInt64) (acc : Int32),
      shape.foldl (fun acc dim => acc * Int32.ofNat dim.toNat) acc =
        acc * Int32.ofNat (shape.map UInt64.toNat).prod := by
    intro shape
    induction shape with
    | nil => exact fun acc => (Int32.mul_one acc).symm
    | cons dim shape ih =>
      intro acc
      rw [List.foldl_cons, ih, List.map_cons, List.prod_cons, Int32.ofNat_mul, Int32.mul_assoc]
  unfold count product
  rw [hfold, Int32.one_mul]

theorem itemsize_lt : a.itemsize < 2 ^ 21 := by
  have hbits := a.dtype.bits.toNat_lt
  have hlanes := a.dtype.lanes.toNat_lt
  have hmul : a.dtype.bits.toNat * a.dtype.lanes.toNat ≤ 255 * 65535 :=
    Nat.mul_le_mul (by omega) (by omega)
  unfold itemsize
  omega

/-- For data that a vector can have, `size()` is its size exactly when the elements can be
counted. -/
theorem size_eq_iff (h : a.product * a.itemsize < 2 ^ 63) :
    a.size = a.product * a.itemsize ↔ a.Countable := by
  have hitem := a.itemsize_lt
  unfold size Countable
  rw [count_eq, Int32.toInt_ofNat']
  generalize a.product = n at *
  generalize a.itemsize = k at *
  have hlow : -(2 ^ 31 : ℤ) ≤ (n : ℤ).bmod Int32.size := Int.le_bmod (m := Int32.size) (by decide)
  have hhigh : (n : ℤ).bmod Int32.size < 2 ^ 31 := Int.bmod_lt (m := Int32.size) (by decide)
  have hmod : (n : ℤ).bmod Int32.size % 2 ^ 32 = n % 2 ^ 32 := Int.bmod_emod (m := Int32.size)
  generalize (n : ℤ).bmod Int32.size = c at *
  rcases Nat.eq_zero_or_pos k with rfl | hpos
  · simp
  have hprod : (n : ℤ) * k < 2 ^ 63 := by exact_mod_cast h
  constructor
  · intro hsize
    refine .inr ?_
    by_contra hlarge
    rcases Int.lt_or_le c 0 with hneg | hnonneg
    · -- A negative number of elements is a size that is too large.
      have hbelow : c * k < 0 := Int.mul_neg_of_neg_of_pos hneg (by omega)
      have habove : -(2 ^ 31 : ℤ) * k ≤ c * k := Int.mul_le_mul_of_nonneg_right hlow (by omega)
      omega
    · have hle : c * k ≤ n * k := Int.mul_le_mul_of_nonneg_right (by omega) (by omega)
      have heq : c * k = n * k := by
        have hnn : 0 ≤ c * k := Int.mul_nonneg hnonneg (by omega)
        have hcast : ((c * k % 2 ^ 64).toNat : ℤ) = ((n * k : ℕ) : ℤ) := congrArg Nat.cast hsize
        push_cast at hcast
        omega
      have : c = n := Int.eq_of_mul_eq_mul_right (by omega) heq
      omega
  · intro hcount
    have hsmall : n < 2 ^ 31 := hcount.resolve_left (by omega)
    obtain rfl : c = n := by omega
    have hcast : ((n : ℤ) * k) = ((n * k : ℕ) : ℤ) := by push_cast; rfl
    rw [hcast]
    omega

/-- An array with all of its data can be converted exactly when its elements can be counted. -/
theorem converts_iff (hfits : a.Fits) (h : a.data.length < 2 ^ 63) : a.Converts ↔ a.Countable := by
  have hlt : a.product * a.itemsize < 2 ^ 63 := hfits ▸ h
  rw [← size_eq_iff hlt, ← hfits]
  constructor
  · intro hconverts
    have hbytes := hconverts 1 Nat.one_pos
    unfold asVector at hbytes
    rw [Nat.div_one, Nat.div_one] at hbytes
    by_cases hle : 1 * a.size ≤ a.data.length
    · rw [readWords_of_le hle] at hbytes
      have hlength := congrArg List.length (Except.ok.inj hbytes)
      simpa using hlength
    · rw [readWords_of_lt (not_le.mp hle)] at hbytes
      cases hbytes
  · intro hsize w _
    unfold asVector
    rw [hsize, readWords_of_le (Nat.mul_div_le a.data.length w)]

end Ndarray

/-! ## The header -/

/-- A read of an integer leaves the buffer, or the bytes of the integer are there. -/
theorem readUint_cases (n : ℕ) (it : List UInt8) :
    readUint n it = .error .outOfBounds ∨
      ∃ k rest, k < 256 ^ n ∧ it = leBytes n k ++ rest ∧ readUint n it = .ok (k, rest) := by
  unfold readUint readBytes
  by_cases h : n ≤ it.length
  · have hlen : (it.take n).length = n := by
      rw [List.length_take]
      omega
    have hbytes : leBytes n (leNat (it.take n)) = it.take n := by
      calc leBytes n (leNat (it.take n)) = leBytes (it.take n).length (leNat (it.take n)) := by
            rw [hlen]
        _ = it.take n := leBytes_leNat _
    have hlt := leNat_lt (it.take n)
    rw [hlen] at hlt
    refine .inr ⟨leNat (it.take n), it.drop n, hlt, ?_, ?_⟩
    · rw [hbytes, List.take_append_drop]
    · rw [if_pos h]
      rfl
  · rw [if_neg h]
    exact .inl rfl

/-- The same for the dimensions. -/
theorem readShape_cases (n : ℕ) (it : List UInt8) :
    readShape n it = .error .outOfBounds ∨
      ∃ shape rest, shape.length = n ∧ (∀ v ∈ shape, v.toNat < 2 ^ 32) ∧
        it = shape.flatMap (fun v => leBytes 4 v.toNat) ++ rest ∧
        readShape n it = .ok (shape, rest) := by
  induction n generalizing it with
  | zero => exact .inr ⟨[], it, rfl, by simp, rfl, rfl⟩
  | succ n ih =>
    unfold readShape
    rcases readUint_cases 4 it with herror | ⟨k, it₁, hk, rfl, hread⟩
    · rw [herror]
      exact .inl rfl
    rw [hread, Except.ok_bind]
    dsimp only
    rcases ih it₁ with herror | ⟨shape, rest, hlen, hsmall, rfl, hrest⟩
    · rw [herror]
      exact .inl rfl
    have hk' : (UInt64.ofNat k).toNat = k := UInt64.toNat_ofNat_of_lt' (by
      have hsize : UInt64.size = 2 ^ 64 := rfl
      omega)
    refine .inr ⟨UInt64.ofNat k :: shape, rest, by rw [List.length_cons, hlen], ?_, ?_, ?_⟩
    · rw [List.forall_mem_cons, hk']
      exact ⟨by omega, hsmall⟩
    · rw [List.flatMap_cons, hk', List.append_assoc]
    · rw [hrest]
      rfl

/-- A binary is too short for its header, or it has a whole one. -/
theorem header_cases (j : List UInt8) :
    ndarrayFromNlohmannJson j = .error .outOfBounds ∨
      ∃ (shape : List UInt64) (dtype : DLDataType) (len : ℕ) (rest : List UInt8),
        shape.length < 2 ^ 32 ∧ (∀ v ∈ shape, v.toNat < 2 ^ 32) ∧ len < 2 ^ 64 ∧
        j = ndarrayLayout shape dtype len rest := by
  unfold ndarrayFromNlohmannJson
  rcases readUint_cases 4 j with herror | ⟨ndim, it, hndim, rfl, hread⟩
  · rw [herror]
    exact .inl rfl
  rw [hread, Except.ok_bind]
  dsimp only
  rcases readShape_cases ndim it with herror | ⟨shape, it, rfl, hsmall, rfl, hread⟩
  · rw [herror]
    exact .inl rfl
  rw [hread, Except.ok_bind]
  dsimp only
  rcases readUint_cases 1 it with herror | ⟨code, it, hcode, rfl, hread⟩
  · rw [herror]
    exact .inl rfl
  rw [hread, Except.ok_bind]
  dsimp only
  rcases readUint_cases 1 it with herror | ⟨bits, it, hbits, rfl, hread⟩
  · rw [herror]
    exact .inl rfl
  rw [hread, Except.ok_bind]
  dsimp only
  rcases readUint_cases 2 it with herror | ⟨lanes, it, hlanes, rfl, hread⟩
  · rw [herror]
    exact .inl rfl
  rw [hread, Except.ok_bind]
  dsimp only
  rcases readUint_cases 8 it with herror | ⟨len, rest, hlen, rfl, hread⟩
  · rw [herror]
    exact .inl rfl
  refine .inr ⟨shape, ⟨UInt8.ofNat code, UInt8.ofNat bits, UInt16.ofNat lanes⟩, len, rest,
    by omega, hsmall, by omega, ?_⟩
  unfold ndarrayLayout
  dsimp only
  rw [UInt8.toNat_ofNat_of_lt' (by omega), UInt8.toNat_ofNat_of_lt' (by omega),
    UInt16.toNat_ofNat_of_lt' (by omega)]

/-- The array that is made of a layout, unless there is less data than is announced. -/
theorem ndarrayFromNlohmannJson_whole {shape : List UInt64} (hrank : shape.length < 2 ^ 32)
    (hshape : ∀ v ∈ shape, v.toNat < 2 ^ 32) (dtype : DLDataType) {len : ℕ} (hlen : len < 2 ^ 63)
    {rest : List UInt8} :
    ndarrayFromNlohmannJson (ndarrayLayout shape dtype len rest) =
      if len ≤ rest.length then .ok (Ndarray.value ⟨shape, dtype, rest.take len⟩)
      else .error .outOfBounds := by
  have hresize : resizeBytes len = .ok () := if_neg (by omega)
  rw [ndarrayFromNlohmannJson_layout hrank hshape dtype (by omega), hresize, Except.ok_bind]
  unfold readBytes
  split_ifs <;> rfl

/-- A binary is safe to read exactly when it has a whole header that says what is behind it, or one
that announces more than a vector can have. -/
theorem safeToRead_iff (j : List UInt8) : SafeToRead j ↔ HonestBinary j := by
  constructor
  · intro hsafe
    rcases header_cases j with herror | ⟨shape, dtype, len, rest, hrank, hshape, hlen, rfl⟩
    · -- The read of the header leaves the binary.
      unfold SafeToRead at hsafe
      rw [herror] at hsafe
      rcases hsafe with ⟨what, h⟩ | ⟨a, h, -⟩
      · cases h
      · cases h
    refine ⟨shape, dtype, len, rest, hrank, hshape, hlen, rfl, ?_⟩
    rcases Nat.lt_or_ge len (2 ^ 63) with hsmall | hlarge
    · refine .inr ?_
      unfold SafeToRead at hsafe
      rw [ndarrayFromNlohmannJson_whole hrank hshape dtype hsmall] at hsafe
      split_ifs at hsafe with hle
      · obtain ⟨what, h⟩ | ⟨a, ha, hfits, hconverts⟩ := hsafe
        · cases h
        obtain ⟨h₁, h₂, h₃⟩ := Value.ndarray.inj (Except.ok.inj ha)
        obtain rfl : (⟨shape, dtype, rest.take len⟩ : Ndarray) = a := by
          rw [Ndarray.mk.injEq]
          exact ⟨h₁, h₂, h₃⟩
        have hdata : (rest.take len).length < 2 ^ 63 := by
          rw [List.length_take]
          omega
        exact ⟨hle, hfits, (Ndarray.converts_iff hfits hdata).mp hconverts⟩
      · rcases hsafe with ⟨what, h⟩ | ⟨a, h, -⟩
        · cases h
        · cases h
    · exact .inl hlarge
  · rintro ⟨shape, dtype, len, rest, hrank, hshape, hlen, rfl, hlarge | ⟨hle, hfits, hcount⟩⟩
    · -- The data cannot be given that size.
      have hresize : resizeBytes len = .error (.exception "vector::_M_default_append") :=
        if_pos hlarge
      rw [SafeToRead, ndarrayFromNlohmannJson_layout hrank hshape dtype hlen, hresize]
      exact .inl ⟨_, rfl⟩
    · rcases Nat.lt_or_ge len (2 ^ 63) with hsmall | hlarge
      · have hdata : (rest.take len).length < 2 ^ 63 := by
          rw [List.length_take]
          omega
        refine .inr ⟨⟨shape, dtype, rest.take len⟩, ?_, hfits,
          (Ndarray.converts_iff hfits hdata).mpr hcount⟩
        rw [ndarrayFromNlohmannJson_whole hrank hshape dtype hsmall, if_pos hle]
      · have hresize : resizeBytes len = .error (.exception "vector::_M_default_append") :=
          if_pos hlarge
        rw [SafeToRead, ndarrayFromNlohmannJson_layout hrank hshape dtype hlen, hresize]
        exact .inl ⟨_, rfl⟩

/-- The empty binary is read outside of it, and so is one that announces five bytes of data and has
none. An array of a thousand floats without data is accepted, and its conversion leaves the data. -/
theorem unsafe_binaries :
    (ndarrayFromNlohmannJson [] = .error .outOfBounds ∧ ¬ SafeToRead []) ∧
    (ndarrayFromNlohmannJson (ndarrayLayout [5] ⟨1, 8, 1⟩ 5 []) = .error .outOfBounds ∧
      ¬ SafeToRead (ndarrayLayout [5] ⟨1, 8, 1⟩ 5 [])) ∧
    ndarrayFromNlohmannJson (ndarrayLayout [1000] float32 0 []) =
        .ok (Ndarray.value ⟨[1000], float32, []⟩) ∧
      (⟨[1000], float32, []⟩ : Ndarray).asVector 4 = .error .outOfBounds ∧
      ¬ SafeToRead (ndarrayLayout [1000] float32 0 []) := by
  have hnot : ∀ j, ndarrayFromNlohmannJson j = .error .outOfBounds → ¬ SafeToRead j := by
    rintro j hj (⟨what, h⟩ | ⟨a, h, -⟩)
    · rw [hj] at h
      cases h
    · rw [hj] at h
      cases h
  have hfloats : ndarrayFromNlohmannJson (ndarrayLayout [1000] float32 0 []) =
      .ok (Ndarray.value ⟨[1000], float32, []⟩) := rfl
  refine ⟨⟨rfl, hnot _ rfl⟩, ⟨rfl, hnot _ rfl⟩, hfloats, rfl, ?_⟩
  rintro (⟨what, h⟩ | ⟨a, h, hfits, -⟩)
  · rw [hfloats] at h
    cases h
  · obtain ⟨h₁, h₂, h₃⟩ := Value.ndarray.inj (Except.ok.inj (hfloats.symm.trans h))
    unfold Ndarray.Fits Ndarray.product Ndarray.itemsize at hfits
    rw [← h₁, ← h₂, ← h₃] at hfits
    exact absurd hfits (by decide)

end Ailoy
