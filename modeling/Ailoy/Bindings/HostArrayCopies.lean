import Ailoy.Bindings.HostArrays
import Ailoy.Bindings.HostRoundTrip

/-!
# Which arrays of the hosts cross unchanged

An array whose elements are, in row-major order, the bytes that its converter copies. For an array of
numpy these are the bytes from its start on: the layouts for which this is so are those in row-major
order, and those without elements (`numpy_crosses_iff`). For an array of JavaScript they are a whole
`ArrayBuffer`, and an `NDArray` must also get its shape back, whose product its constructor takes
modulo `2 ^ 64` (`typedArray_crosses_iff`, `jsNdarray_crosses_iff`).
-/

namespace Ailoy.HostArrays

open StridedView
open HostValues (int64Value doubleOfInt clamp truncate)

/-! ## Sizes as numbers -/

/-- A `size_t` below `2 ^ 63` as an `int64_t`. -/
theorem toInt_toInt64_of_lt {n : UInt64} (h : n.toNat < 2 ^ 63) : n.toInt64.toInt = n.toNat :=
  (toInt_eq_toNat_toUInt64 n.toInt64).trans (if_pos h)

/-- An `int64_t` becomes a `size_t` below `2 ^ 63` when it is not negative. -/
theorem toNat_toUInt64 (i : Int64) :
    (i.toInt < 0 → 2 ^ 63 ≤ i.toUInt64.toNat) ∧
      (0 ≤ i.toInt → i.toUInt64.toNat = i.toInt.toNat) := by
  have hint := toInt_eq_toNat_toUInt64 i
  have hlt : i.toUInt64.toNat < 2 ^ 64 := i.toUInt64.toNat_lt
  split_ifs at hint <;> omega

/-- The double of a size is exact when its significand fits one. -/
theorem datum_numberOfSize {n : UInt64} (h : 2 ^ (Nat.log2 n.toNat - 52) ∣ n.toNat) :
    BinaryFloat.binary64.datum (numberOfSize n).toNat = .finite false n.toNat := by
  by_cases hn : n.toNat = 0
  · unfold numberOfSize
    rw [hn]
    exact HostValues.datum_zero
  · exact HostValues.datum_doubleOfInt (s := false) hn n.toNat_lt h

/-- What a size below `2 ^ 53` is a multiple of. -/
theorem exact_of_lt {n : ℕ} (h : n < 2 ^ 53) : 2 ^ (Nat.log2 n - 52) ∣ n := by
  by_cases hn : n = 0
  · rw [hn]
    exact dvd_zero _
  · have hlog : Nat.log2 n < 53 := (Nat.log2_lt hn).mpr h
    rw [Nat.sub_eq_zero_of_le (by omega), pow_zero]
    exact one_dvd n

/-- It is kept by the conversion to a double. -/
theorem doubleOfSize_of_lt {n : UInt64} (h : n.toNat < 2 ^ 53) : doubleOfSize n = n.toNat := by
  unfold doubleOfSize
  rw [datum_numberOfSize (exact_of_lt h)]
  show (n.toNat : ℚ).floor.toNat = n.toNat
  have hfloor : (n.toNat : ℚ).floor = n.toNat := Rat.floor_intCast n.toNat
  rw [hfloor, Int.toNat_natCast]

/-- A size that a double is exact for comes back from its `Number`. -/
theorem sizeOfNumber_numberOfSize {n : UInt64} (h : 2 ^ (Nat.log2 n.toNat - 52) ∣ n.toNat)
    (hlt : n.toNat < 2 ^ 63) : sizeOfNumber (numberOfSize n) = n := by
  have hfloor : (n.toNat : ℚ).floor = n.toNat := Rat.floor_intCast n.toNat
  have hvalue : int64Value (numberOfSize n) = clamp n.toNat := by
    unfold int64Value
    rw [datum_numberOfSize h]
    show clamp (truncate false _) = _
    rw [truncate, if_neg Bool.false_ne_true, hfloor]
  have hint : (clamp n.toNat).toInt = n.toNat := HostValues.toInt_clamp ⟨by omega, by omega⟩
  unfold sizeOfNumber
  rw [hvalue, ← UInt64.toNat_inj, (toNat_toUInt64 _).2 (by omega), hint, Int.toNat_natCast]

/-- The largest `int64_t`, which a double is not exact for. -/
theorem sizeOfNumber_numberOfSize_max :
    sizeOfNumber (numberOfSize 0x7FFFFFFFFFFFFFFF) = 0x7FFFFFFFFFFFFFFF := by
  have hbits : (numberOfSize 0x7FFFFFFFFFFFFFFF).toNat =
      BinaryFloat.binary64.pack false 1086 0 := rfl
  have hdatum : BinaryFloat.binary64.datum (numberOfSize 0x7FFFFFFFFFFFFFFF).toNat =
      .finite false ((2 ^ 63 : ℤ) : ℚ) := by
    rw [hbits, BinaryFloat.Format.datum_pack _ (by decide) (by decide), if_neg (by decide),
      if_neg (by decide)]
    norm_num [BinaryFloat.binary64, BinaryFloat.Format.bias]
  unfold sizeOfNumber int64Value
  rw [hdatum]
  dsimp only
  rw [truncate, if_neg Bool.false_ne_true, Rat.floor_intCast]
  rfl

/-- The size of a `Number` comes back from its own `Number`, if it is not the one of a negative
number. -/
theorem sizeOfNumber_returns {bits : UInt64} (hlt : (sizeOfNumber bits).toNat < 2 ^ 63) :
    sizeOfNumber (numberOfSize (sizeOfNumber bits)) = sizeOfNumber bits := by
  -- No double is exact for the largest size, but the conversion back stops at it.
  by_cases hmax : (sizeOfNumber bits).toNat = 2 ^ 63 - 1
  · have hsize : sizeOfNumber bits = 0x7FFFFFFFFFFFFFFF := UInt64.toNat_inj.mp hmax
    rw [hsize]
    exact sizeOfNumber_numberOfSize_max
  refine sizeOfNumber_numberOfSize ?_ hlt
  by_cases hzero : (sizeOfNumber bits).toNat = 0
  · rw [hzero]
    exact dvd_zero _
  unfold sizeOfNumber int64Value at *
  cases hdatum : BinaryFloat.binary64.datum bits.toNat with
  | infinite s =>
    rw [hdatum] at hzero
    exact absurd rfl hzero
  | nan =>
    rw [hdatum] at hzero
    exact absurd rfl hzero
  | finite s q =>
    rw [hdatum] at hlt hmax hzero
    dsimp only at hlt hmax hzero ⊢
    -- The size is the integer part of the number, which is not negative.
    have hclamp := HostValues.toInt_clamp_eq (truncate s q)
    obtain ⟨hneg, hnonneg⟩ := toNat_toUInt64 (clamp (truncate s q))
    have hsize : ((clamp (truncate s q)).toUInt64.toNat : ℤ) = truncate s q := by omega
    have hfloor : q.floor = (clamp (truncate s q)).toUInt64.toNat := by
      have hq : 0 ≤ q.floor := Rat.le_floor_iff.mpr (BinaryFloat.Format.magnitude_nonneg hdatum)
      rw [hsize]
      unfold truncate at hsize ⊢
      split_ifs at hsize ⊢ <;> omega
    exact BinaryFloat.Format.significand_of_datum hzero hdatum hfloor

/-- The size of the `Number` of a size. -/
theorem sizeOfNumber_numberOfSize_lt (n : UInt64) :
    (sizeOfNumber (numberOfSize n)).toNat < 2 ^ 63 := by
  have hnonneg : 0 ≤ (int64Value (numberOfSize n)).toInt := by
    unfold int64Value
    cases hdatum : BinaryFloat.binary64.datum (numberOfSize n).toNat with
    | infinite s => exact Int.le_refl 0
    | nan => exact Int.le_refl 0
    | finite s q =>
      have hround : (numberOfSize n).toNat =
          BinaryFloat.binary64.round (decide ((n.toNat : ℤ) < 0)) (n.toNat : ℤ).natAbs 0 :=
        UInt64.toNat_ofNat_of_lt' (BinaryFloat.Format.round_lt _ _ _)
      rw [hround, decide_eq_false (by omega)] at hdatum
      have hq : 0 ≤ q.floor := Rat.le_floor_iff.mpr (BinaryFloat.Format.magnitude_nonneg hdatum)
      obtain rfl := BinaryFloat.Format.sign_of_round hdatum
      show 0 ≤ (clamp (truncate false q)).toInt
      rw [HostValues.toInt_clamp_eq, truncate, if_neg Bool.false_ne_true]
      omega
  have hlt := Int64.toInt_lt (int64Value (numberOfSize n))
  have hsize := (toNat_toUInt64 _).2 hnonneg
  unfold sizeOfNumber
  omega

/-! ## Products of sizes -/

/-- The number of elements, as the code takes it, is a product modulo `2 ^ 64`. -/
theorem toNat_foldl_mul (acc : UInt64) (shape : List UInt64) :
    (shape.foldl (· * ·) acc).toNat = acc.toNat * (shape.map UInt64.toNat).prod % 2 ^ 64 := by
  induction shape generalizing acc with
  | nil =>
    rw [List.foldl_nil, List.map_nil, List.prod_nil, Nat.mul_one, Nat.mod_eq_of_lt acc.toNat_lt]
  | cons dim shape ih =>
    rw [List.foldl_cons, ih, UInt64.toNat_mul, Nat.mod_mul_mod, List.map_cons, List.prod_cons,
      Nat.mul_assoc]

variable (wild : ℕ → UInt64)

/-- The product that is kept in a double is exact when it is below `2 ^ 53`, and so is one with a
factor of zero. -/
theorem foldl_doubleOfSize (acc : ℕ) (shape : List UInt64)
    (h : acc * (shape.map UInt64.toNat).prod < 2 ^ 53) :
    shape.foldl (fun acc dim => doubleOfSize (sizeOfDouble wild acc * dim)) acc =
      acc * (shape.map UInt64.toNat).prod := by
  induction shape generalizing acc with
  | nil => rw [List.foldl_nil, List.map_nil, List.prod_nil, Nat.mul_one]
  | cons dim shape ih =>
    rw [List.map_cons, List.prod_cons] at h ⊢
    rw [List.foldl_cons]
    by_cases hprod : (shape.map UInt64.toNat).prod = 0
    · -- A zero follows, so that it does not matter what is kept.
      rw [ih _ (by rw [hprod]; omega), hprod, Nat.mul_zero, Nat.mul_zero, Nat.mul_zero]
    -- A zero is kept from here on, and any other factor leaves the product below the bound.
    by_cases hdim : dim.toNat = 0
    · obtain rfl : dim = 0 := UInt64.toNat_inj.mp hdim
      have hzero : doubleOfSize (sizeOfDouble wild acc * 0) = 0 := by
        rw [UInt64.mul_zero]
        exact doubleOfSize_of_lt (Nat.two_pow_pos 53)
      rw [hzero, ih 0 (by omega), hdim]
      omega
    · have hle : acc ≤ acc * dim.toNat := Nat.le_mul_of_pos_right _ (Nat.pos_of_ne_zero hdim)
      have hstep : acc * dim.toNat < 2 ^ 53 := by
        rw [← Nat.mul_assoc] at h
        exact Nat.lt_of_le_of_lt (Nat.le_mul_of_pos_right _ (Nat.pos_of_ne_zero hprod)) h
      have hsize : (sizeOfDouble wild acc * dim).toNat = acc * dim.toNat := by
        unfold sizeOfDouble
        rw [if_pos (by omega), UInt64.toNat_mul,
          UInt64.toNat_ofNat_of_lt' (show acc < 2 ^ 64 by omega)]
        exact Nat.mod_eq_of_lt (by omega)
      have hkeep : doubleOfSize (sizeOfDouble wild acc * dim) = acc * dim.toNat := by
        rw [doubleOfSize_of_lt (by omega), hsize]
      rw [hkeep, ih _ (by rwa [Nat.mul_assoc]), Nat.mul_assoc]

namespace ElementType

theorem bytes_pos (t : ElementType) : 0 < t.bytes := by cases t <;> decide

theorem ofFormat_format (t : ElementType) : ofFormat t.format = some t := by cases t <;> rfl

theorem ofName_name (t : ElementType) : ofName t.name = some t := by cases t <;> rfl

theorem ofDtype_dtype (unsupported : String) (t : ElementType) :
    ofDtype unsupported t.dtype = .ok t := by cases t <;> rfl

/-- The bits of a type are those of its bytes. -/
theorem toNat_bits (t : ElementType) : t.dtype.bits.toNat = 8 * t.bytes := by cases t <;> rfl

theorem dtypeBytes_name (t : ElementType) : dtypeBytes t.name = t.bytes := by cases t <;> rfl

theorem checkDtypeMatch_name (t : ElementType) : checkDtypeMatch t.name (.element t) = true := by
  cases t <;> rfl

end ElementType

/-- The check of the data sees the bytes of all elements. -/
theorem nbytes_eq {shape : List UInt64} {t : ElementType}
    (h : (shape.map UInt64.toNat).prod * t.bytes < 2 ^ 53) :
    (nbytes wild shape t.name).toNat = (shape.map UInt64.toNat).prod * t.bytes := by
  have hle : (shape.map UInt64.toNat).prod ≤ (shape.map UInt64.toNat).prod * t.bytes :=
    Nat.le_mul_of_pos_right _ t.bytes_pos
  have hprod : accumulate wild shape = (shape.map UInt64.toNat).prod := by
    unfold accumulate
    rw [foldl_doubleOfSize wild 1 shape (by omega), Nat.one_mul]
  unfold nbytes sizeOfDouble
  rw [hprod, t.dtypeBytes_name, if_pos (by omega)]
  exact UInt64.toNat_ofNat_of_lt' (show _ < 2 ^ 64 by omega)

/-! ## Arrays of JavaScript -/

theorem TypedArray.byteLength_eq {a : TypedArray} {t : ElementType} (h : a.type = .element t) :
    a.byteLength = a.elementLength * t.bytes := by
  unfold TypedArray.byteLength
  rw [h]
  rfl

/-- The elements of a typed array are all there. -/
theorem TypedArray.length_elements (a : TypedArray) : a.elements.length = a.byteLength := by
  have hin := a.inBuffer
  refine length_units (Int.natCast_nonneg _) ?_
  unfold TypedArray.byteLength
  omega

/-- A typed array that is as long as its buffer is the whole of it. -/
theorem TypedArray.elements_of_covers (a : TypedArray) (h : a.byteLength = a.buffer.data.length) :
    a.elements = a.buffer.data := by
  have hin := a.inBuffer
  have hoffset : a.byteOffset = 0 := by
    unfold TypedArray.byteLength at h
    omega
  unfold TypedArray.elements units
  rw [hoffset, h]
  exact List.take_length

/-- The constructor of an `NDArray` returns when the data has the elements that the shape says. -/
theorem construct_of_count {shape : List UInt64} {t : ElementType} {data : TypedArray}
    (htype : data.type = .element t)
    (hcount : ((shape.map sizeOfNumber).map UInt64.toNat).prod = data.elementLength) :
    construct wild shape t.name data = .ok ⟨shape.map sizeOfNumber, t.name, data⟩ := by
  have hin := data.inBuffer
  have hlt := data.buffer.length_lt
  have hlen : data.byteLength =
      ((shape.map sizeOfNumber).map UInt64.toNat).prod * t.bytes := by
    rw [TypedArray.byteLength_eq htype, hcount]
  have hbytes : data.byteLength = (nbytes wild (shape.map sizeOfNumber) t.name).toNat := by
    rw [nbytes_eq wild, hlen]
    rw [← hlen]
    unfold TypedArray.byteLength
    omega
  unfold construct
  dsimp only
  rw [htype, if_neg (not_not_intro t.checkDtypeMatch_name), t.dtypeBytes_name,
    if_neg (Nat.ne_of_gt t.bytes_pos), if_neg (not_not_intro hbytes)]

/-- The conversion of an `ndarray_t` whose sizes are those of `Number`s. -/
theorem castJs_eq {shape : List UInt64} {t : ElementType} {data : List UInt8}
    (hlen : data.length = (shape.map UInt64.toNat).prod * t.bytes) (hlt : data.length < 2 ^ 53)
    (hsizes : ∀ n ∈ shape, sizeOfNumber (numberOfSize n) = n) :
    ∃ b, castJs wild ⟨shape, t.dtype, data⟩ = .ok b ∧
      b.contents = ⟨shape.map UInt64.toNat, some t, data⟩ := by
  have hback : (shape.map numberOfSize).map sizeOfNumber = shape := by
    rw [List.map_map]
    exact (List.map_congr_left hsizes).trans (List.map_id shape)
  have hle : (shape.map UInt64.toNat).prod ≤ (shape.map UInt64.toNat).prod * t.bytes :=
    Nat.le_mul_of_pos_right _ t.bytes_pos
  have hcount : (shape.foldl (· * ·) 1).toNat = (shape.map UInt64.toNat).prod := by
    rw [toNat_foldl_mul, UInt64.toNat_one, Nat.one_mul, Nat.mod_eq_of_lt (by omega)]
  have hin : 0 + (shape.map UInt64.toNat).prod * t.bytes ≤ data.length := by omega
  let ab : ArrayBuffer := ⟨data, hlt⟩
  let view : TypedArray := ⟨ab, .element t, 0, (shape.map UInt64.toNat).prod, hin⟩
  have hconstruct : construct wild (shape.map numberOfSize) t.name view =
      .ok ⟨shape, t.name, view⟩ := by
    have hreturns : ((shape.map numberOfSize).map sizeOfNumber).map UInt64.toNat =
        shape.map UInt64.toNat := by rw [hback]
    have hok : construct wild (shape.map numberOfSize) t.name view =
        .ok ⟨(shape.map numberOfSize).map sizeOfNumber, t.name, view⟩ :=
      construct_of_count wild rfl (congrArg List.prod hreturns)
    rwa [hback] at hok
  refine ⟨⟨shape, t.name, view⟩, ?_, ?_⟩
  · unfold castJs ArrayBuffer.new TypedArray.new
    dsimp only
    rw [dif_pos hlt, Except.ok_bind, t.ofDtype_dtype, Except.ok_bind, hcount, dif_pos hin,
      Except.ok_bind]
    exact hconstruct
  · unfold JsNdarray.contents
    rw [t.ofName_name, view.elements_of_covers hlen.symm]

/-- What comes back has the sizes of the `Number`s of the sizes. -/
theorem shape_of_castJs {a : Ndarray} {b : JsNdarray} (h : castJs wild a = .ok b) :
    b.shape = (a.shape.map numberOfSize).map sizeOfNumber := by
  unfold castJs at h
  obtain ⟨ab, -, h⟩ := Except.bind_eq_ok_iff.mp h
  obtain ⟨t, -, h⟩ := Except.bind_eq_ok_iff.mp h
  obtain ⟨view, -, h⟩ := Except.bind_eq_ok_iff.mp h
  unfold construct at h
  dsimp only at h
  split_ifs at h
  rw [← Except.ok.inj h]

/-- A typed array crosses unchanged when it is of a known type and the whole of its buffer. -/
theorem typedArray_crosses_iff (a : TypedArray) :
    a.Crosses wild ↔ a.type ≠ .uint8Clamped ∧ a.byteLength = a.buffer.data.length := by
  have hbuffer := a.buffer.length_lt
  have hin := a.inBuffer
  constructor
  · rintro ⟨n, t, b, hload, hholds, -, -⟩
    have htype := hholds.type_eq
    have hlen : n.data.length = a.elements.length := congrArg List.length hholds.data_eq
    rw [a.length_elements] at hlen
    unfold TypedArray.load at hload
    cases ht : a.type with
    | uint8Clamped =>
      rw [ht] at hload
      cases hload
    | element t' =>
      have hknown : TypedArrayType.element t' ≠ .uint8Clamped := by
        intro h
        cases h
      rw [ht] at hload
      refine ⟨hknown, ?_⟩
      rw [← hlen, ← Except.ok.inj hload]
  · rintro ⟨htype, hcovers⟩
    obtain ⟨t, ht⟩ : ∃ t, a.type = .element t := by
      cases ht : a.type with
      | element t => exact ⟨t, rfl⟩
      | uint8Clamped => exact absurd ht htype
    have hbytes := TypedArray.byteLength_eq ht
    have hle : a.elementLength ≤ a.elementLength * t.bytes :=
      Nat.le_mul_of_pos_right _ t.bytes_pos
    have hsize : (UInt64.ofNat a.elementLength).toNat = a.elementLength :=
      UInt64.toNat_ofNat_of_lt' (show _ < 2 ^ 64 by omega)
    have hshape : [UInt64.ofNat a.elementLength].map UInt64.toNat = [a.elementLength] := by
      rw [List.map_singleton, hsize]
    have hlen : a.buffer.data.length =
        ([UInt64.ofNat a.elementLength].map UInt64.toNat).prod * t.bytes := by
      rw [hshape, List.prod_singleton, ← hbytes, hcovers]
    have hsizes : ∀ n ∈ [UInt64.ofNat a.elementLength], sizeOfNumber (numberOfSize n) = n := by
      intro n hn
      rw [List.mem_singleton.mp hn]
      exact sizeOfNumber_numberOfSize (exact_of_lt (by omega)) (by omega)
    have hcontents : a.contents = ⟨[a.elementLength], some t, a.buffer.data⟩ := by
      unfold TypedArray.contents
      rw [a.elements_of_covers hcovers, ht]
      rfl
    obtain ⟨b, hcast, hb⟩ := castJs_eq wild hlen a.buffer.length_lt hsizes
    refine ⟨_, t, b, ?_, ?_, hcast, ?_⟩
    · unfold TypedArray.load
      rw [ht]
    · rw [hcontents]
      exact ⟨rfl, rfl, hshape, hshape ▸ hlen, rfl⟩
    · rw [hb, hcontents, hshape]

/-- What the constructor of an `NDArray` has checked. -/
theorem construct_eq_ok {shape : List UInt64} {dtype : String} {data : TypedArray} {a : JsNdarray}
    (h : construct wild shape dtype data = .ok a) :
    a = ⟨shape.map sizeOfNumber, dtype, data⟩ ∧
      ∃ t, ElementType.ofName dtype = some t ∧ data.type = .element t := by
  unfold construct at h
  dsimp only at h
  split_ifs at h with hmatch hbytes hlen
  refine ⟨(Except.ok.inj h).symm, ?_⟩
  unfold checkDtypeMatch at hmatch
  cases ht : ElementType.ofName dtype with
  | some t =>
    rw [ht] at hmatch
    exact ⟨t, rfl, of_decide_eq_true hmatch⟩
  | none =>
    rw [ht] at hmatch
    cases hmatch

/-- An `NDArray` crosses unchanged when its data is the whole of its buffer, the product of its
dimensions is the number of elements of it, and none of them was a negative number. -/
theorem jsNdarray_crosses_iff {shape : List UInt64} {dtype : String} {data : TypedArray}
    {a : JsNdarray} (h : construct wild shape dtype data = .ok a) :
    a.Crosses wild ↔ a.data.byteLength = a.data.buffer.data.length ∧
      (a.shape.map UInt64.toNat).prod = a.data.elementLength ∧ ∀ n ∈ a.shape, n.toNat < 2 ^ 63 := by
  obtain ⟨rfl, t, ht, htype⟩ := construct_eq_ok wild h
  have hbytes := TypedArray.byteLength_eq htype
  have hload : JsNdarray.load ⟨shape.map sizeOfNumber, dtype, data⟩ =
      .ok ⟨shape.map sizeOfNumber, t.dtype, data.buffer.data⟩ := by
    unfold JsNdarray.load dtypeCode dtypeBytes
    rw [ht]
    rfl
  constructor
  · rintro ⟨n, t', b, hn, hholds, hcast, hcontents⟩
    obtain rfl := Except.ok.inj (hload.symm.trans hn)
    have hlen : data.buffer.data.length = data.byteLength := by
      rw [← data.length_elements]
      exact congrArg List.length hholds.data_eq
    have htypes : some t = some t' := ht.symm.trans hholds.type_eq
    obtain rfl := Option.some.inj htypes
    refine ⟨hlen.symm, ?_, fun n hn => ?_⟩
    · have hprod : data.byteLength = ((shape.map sizeOfNumber).map UInt64.toNat).prod * t.bytes :=
        hlen.symm.trans hholds.length_eq
      rw [hbytes] at hprod
      exact (Nat.eq_of_mul_eq_mul_right t.bytes_pos hprod).symm
    · -- The dimensions that came back are those that were there.
      have hshape := congrArg Contents.shape hcontents
      have hback := shape_of_castJs wild hcast
      dsimp only at hback hn
      have hmem : n.toNat ∈ b.shape.map UInt64.toNat := by
        rw [show b.shape.map UInt64.toNat = _ from hshape]
        exact List.mem_map_of_mem hn
      rw [hback] at hmem
      obtain ⟨m, hm, hmn⟩ := List.mem_map.mp hmem
      obtain ⟨bits, hbits, rfl⟩ := List.mem_map.mp hm
      obtain ⟨k, -, rfl⟩ := List.mem_map.mp hbits
      rw [← hmn]
      exact sizeOfNumber_numberOfSize_lt k
  · rintro ⟨hcovers, hprod, hdims⟩
    dsimp only at hcovers hprod hdims
    have hlen : data.buffer.data.length =
        ((shape.map sizeOfNumber).map UInt64.toNat).prod * t.bytes := by
      rw [hprod, ← hbytes, hcovers]
    have hsizes : ∀ n ∈ shape.map sizeOfNumber, sizeOfNumber (numberOfSize n) = n := by
      intro n hn
      obtain ⟨bits, -, rfl⟩ := List.mem_map.mp hn
      exact sizeOfNumber_returns (hdims _ hn)
    have hcontents : JsNdarray.contents ⟨shape.map sizeOfNumber, dtype, data⟩ =
        ⟨(shape.map sizeOfNumber).map UInt64.toNat, some t, data.buffer.data⟩ := by
      unfold JsNdarray.contents
      rw [ht, data.elements_of_covers hcovers]
    obtain ⟨b, hcast, hb⟩ := castJs_eq wild hlen data.buffer.length_lt hsizes
    refine ⟨_, t, b, hload, ?_, hcast, hb.trans hcontents.symm⟩
    rw [hcontents]
    exact ⟨rfl, rfl, rfl, hlen, rfl⟩

/-! ## Arrays of numpy -/

/-- The next stride is the size of all that is inside, modulo `2 ^ 64`. -/
theorem strides_snd (stride : UInt64) (shape : List UInt64) :
    (strides stride shape).2.toNat =
      (shape.map UInt64.toNat).prod * stride.toNat % 2 ^ 64 := by
  induction shape with
  | nil =>
    rw [strides, List.map_nil, List.prod_nil, Nat.one_mul, Nat.mod_eq_of_lt stride.toNat_lt]
  | cons dim shape ih =>
    have hmul : (strides stride (dim :: shape)).2 = (strides stride shape).2 * dim := rfl
    rw [hmul, UInt64.toNat_mul, ih, Nat.mod_mul_mod, List.map_cons, List.prod_cons]
    congr 1
    ring

theorem length_strides (stride : UInt64) (shape : List UInt64) :
    (strides stride shape).1.length = shape.length := by
  induction shape with
  | nil => rfl
  | cons dim shape ih =>
    have hcons : (strides stride (dim :: shape)).1 =
        (strides stride shape).2 :: (strides stride shape).1 := rfl
    rw [hcons, List.length_cons, List.length_cons, ih]

/-- The dimensions that `cast` gives its array. -/
def stridedView (stride : UInt64) (shape : List UInt64) : StridedView :=
  (shape.map UInt64.toNat).zip ((strides stride shape).1.map fun s => s.toInt64.toInt)

theorem map_fst_stridedView (stride : UInt64) (shape : List UInt64) :
    (stridedView stride shape).map Prod.fst = shape.map UInt64.toNat := by
  refine List.map_fst_zip ?_
  rw [List.length_map, List.length_map, length_strides]

theorem count_stridedView (stride : UInt64) (shape : List UInt64) :
    count (stridedView stride shape) = (shape.map UInt64.toNat).prod := by
  unfold count
  rw [map_fst_stridedView]

/-- The strides of `cast` are those of the row-major order. -/
theorem rowMajor_stridedView {stride : UInt64} {shape : List UInt64}
    (hne : (shape.map UInt64.toNat).prod ≠ 0)
    (hlt : (shape.map UInt64.toNat).prod * stride.toNat < 2 ^ 63) :
    RowMajor stride.toNat (stridedView stride shape) := by
  induction shape with
  | nil => trivial
  | cons dim shape ih =>
    rw [List.map_cons, List.prod_cons] at hne hlt
    obtain ⟨hdim, hprod⟩ := Nat.mul_ne_zero_iff.mp hne
    have hinner : (shape.map UInt64.toNat).prod * stride.toNat < 2 ^ 63 := by
      rw [Nat.mul_assoc] at hlt
      exact Nat.lt_of_le_of_lt (Nat.le_mul_of_pos_left _ (Nat.pos_of_ne_zero hdim)) hlt
    have hstride : (strides stride shape).2.toNat =
        (shape.map UInt64.toNat).prod * stride.toNat := by
      rw [strides_snd, Nat.mod_eq_of_lt (by omega)]
    refine ⟨.inr ?_, ih hprod hinner⟩
    show (strides stride shape).2.toInt64.toInt =
      ((count (stridedView stride shape) * stride.toNat : ℕ) : ℤ)
    rw [toInt_toInt64_of_lt (by omega), hstride, count_stridedView]

/-- The conversion of an `ndarray_t` whose sizes are those of numpy. -/
theorem castNumpy_eq {shape : List UInt64} {t : ElementType} {data : List UInt8}
    (hlen : data.length = (shape.map UInt64.toNat).prod * t.bytes) (hlt : data.length < 2 ^ 63)
    (hdims : ∀ n ∈ shape, n.toNat < 2 ^ 63) :
    ∃ b, castNumpy ⟨shape, t.dtype, data⟩ = .ok b ∧
      b.contents = ⟨shape.map UInt64.toNat, some t, data⟩ := by
  have hitem : Ndarray.itemsize ⟨shape, t.dtype, data⟩ = t.bytes := by
    have hlanes : t.dtype.lanes.toNat = 1 := rfl
    unfold Ndarray.itemsize
    dsimp only
    rw [t.toNat_bits, hlanes]
    omega
  have hstride : (UInt64.ofNat (t.dtype.bits.toNat / 8)).toNat = t.bytes := by
    have hbits := t.toNat_bits
    have hsmall := t.dtype.bits.toNat_lt
    rw [UInt64.toNat_ofNat_of_lt' (show _ < 2 ^ 64 by omega)]
    omega
  let stride := UInt64.ofNat (t.dtype.bits.toNat / 8)
  let dims := stridedView stride shape
  have hcount : count dims = (shape.map UInt64.toNat).prod := count_stridedView stride shape
  -- The view is the whole data, in row-major order, if there is an element at all.
  have hview : InBounds t.bytes data.length dims (0 : ℕ) ∧
      gather t.bytes data dims (0 : ℕ) = data := by
    by_cases hprod : (shape.map UInt64.toNat).prod = 0
    · have hnil : data = [] := by
        rw [hprod, Nat.zero_mul] at hlen
        exact List.eq_nil_of_length_eq_zero hlen
      rw [gather_of_count_eq_zero _ _ (hcount.trans hprod), hnil]
      exact ⟨inBounds_of_count_eq_zero _ (hcount.trans hprod), rfl⟩
    · have hrow : RowMajor t.bytes dims := by
        rw [← hstride]
        exact rowMajor_stridedView hprod (by rw [hstride, ← hlen]; exact hlt)
      have hin : InBounds t.bytes data.length dims (0 : ℕ) := by
        refine hrow.inBounds (Int.natCast_nonneg _) ?_
        rw [hcount, ← hlen]
        omega
      refine ⟨hin, ?_⟩
      rw [gather_of_rowMajor hrow (by rwa [hcount]) hin, hcount, ← hlen]
      exact List.take_length
  refine ⟨⟨data, 0, t.bytes, t.format, dims⟩, ?_, ?_⟩
  · unfold castNumpy
    dsimp only
    rw [t.ofDtype_dtype, Except.ok_bind, hitem, if_neg, if_pos]
    · rfl
    · exact hview.1
    · rintro ⟨n, hn, hle⟩
      have hlt := hdims n hn
      omega
  · unfold BufferInfo.contents BufferInfo.shape
    dsimp only
    rw [hview.2, t.ofFormat_format, map_fst_stridedView]

/-- An array of numpy crosses unchanged when its type is known, and it has no elements or they are
packed. -/
theorem numpy_crosses_iff (a : NumpyArray) :
    a.Crosses ↔ a.IsSupported ∧ (a.info.size = 0 ∨ a.info.IsPacked) := by
  have hmap : (a.info.shape.map UInt64.ofNat).map UInt64.toNat = a.info.shape := by
    rw [List.map_map]
    refine (List.map_congr_left fun n hn => ?_).trans (List.map_id _)
    have hlt := a.dim_lt n hn
    exact UInt64.toNat_ofNat_of_lt' (show n < 2 ^ 64 by omega)
  have helements : a.info.contents.elements.length = a.info.size * a.info.itemsize :=
    length_gather a.inMemory
  constructor
  · rintro ⟨n, t, b, hload, hholds, -, -⟩
    have ht : ElementType.ofFormat a.info.format = some t := hholds.type_eq
    have hitem := a.itemsize_eq t ht
    have hpos := t.bytes_pos
    refine ⟨⟨t, ht⟩, ?_⟩
    unfold BufferInfo.load at hload
    rw [ht] at hload
    obtain ⟨data, hcopy, hn⟩ := Except.bind_eq_ok_iff.mp hload
    have hdata : data = a.info.contents.elements := by
      rw [← hholds.data_eq, ← Except.ok.inj hn]
    unfold memcpy at hcopy
    split_ifs at hcopy with hwhere
    rcases hwhere with hzero | hle
    · exact .inl ((Nat.mul_eq_zero.mp hzero).resolve_right (by omega))
    · exact .inr ⟨hle, (Except.ok.inj hcopy).trans hdata⟩
  · rintro ⟨⟨t, ht⟩, hor⟩
    have hitem := a.itemsize_eq t ht
    -- The copy is within the memory, and it is the elements.
    have hcopy : memcpy a.info.memory a.info.ptr (a.info.size * a.info.itemsize) =
        .ok a.info.contents.elements := by
      unfold memcpy
      rcases hor with hzero | ⟨hle, hpacked⟩
      · rw [if_pos (.inl (by rw [hzero, Nat.zero_mul]))]
        rw [hzero, Nat.zero_mul] at helements ⊢
        rw [List.eq_nil_of_length_eq_zero helements]
        rfl
      · rw [if_pos (.inr hle), hpacked]
    have hlen : a.info.contents.elements.length = a.info.shape.prod * t.bytes := by
      rw [helements, hitem]
      rfl
    have hdims : ∀ n ∈ a.info.shape.map UInt64.ofNat, n.toNat < 2 ^ 63 := by
      intro n hn
      refine a.dim_lt _ ?_
      rw [← hmap]
      exact List.mem_map_of_mem hn
    obtain ⟨b, hcast, hb⟩ := castNumpy_eq (by rw [hmap]; exact hlen) (helements ▸ a.size_lt) hdims
    have hcontents : a.info.contents = ⟨a.info.shape, some t, a.info.contents.elements⟩ := by
      rw [← ht]
      rfl
    refine ⟨_, t, b, ?_, ?_, hcast, ?_⟩
    · unfold BufferInfo.load
      rw [ht]
      dsimp only
      rw [hcopy]
      rfl
    · exact ⟨ht, rfl, hmap, hlen, rfl⟩
    · rw [hb, hmap, ← hcontents]

/-- The arrays of one layout cross unchanged, whatever is in the memory, when the strides are those of
the row-major order. -/
theorem layout_crosses_iff (a : NumpyArray) :
    (∀ memory h, (a.withMemory memory h).Crosses) ↔
      a.IsSupported ∧ (a.info.size = 0 ∨ RowMajor a.info.itemsize a.info.dims) := by
  constructor
  · intro hall
    obtain ⟨⟨t, ht⟩, -⟩ := (numpy_crosses_iff _).mp (hall a.info.memory rfl)
    refine ⟨⟨t, ht⟩, ?_⟩
    by_cases hsize : a.info.size = 0
    · exact .inl hsize
    -- The elements are packed in every memory, so that the strides can be told.
    have hitem : a.info.itemsize ≠ 0 := by
      have hpos := t.bytes_pos
      rw [a.itemsize_eq t ht]
      omega
    have hzero : (0 : UInt8) ≠ 1 := by decide
    refine .inr (rowMajor_of_gather hzero hitem hsize a.inMemory fun memory h => ?_)
    obtain ⟨-, hor⟩ := (numpy_crosses_iff _).mp (hall memory h)
    exact (hor.resolve_left hsize).2.symm
  · rintro ⟨hsupported, hor⟩ memory h
    refine (numpy_crosses_iff _).mpr ⟨hsupported, ?_⟩
    by_cases hsize : a.info.size = 0
    · exact .inl hsize
    have hrow := hor.resolve_left hsize
    have hin : InBounds a.info.itemsize memory.length a.info.dims a.info.ptr := h ▸ a.inMemory
    have hend := hin.end_le hrow hsize
    refine .inr ⟨?_, (gather_of_rowMajor hrow hsize hin).symm⟩
    show a.info.ptr + count a.info.dims * a.info.itemsize ≤ memory.length
    omega

/-! ## Arrays of every host -/

/-- When an array crosses unchanged. One of numpy does when its type is known, and it has no elements
or they are packed, which is so for a layout, whatever is in the memory, when its strides are those of
the row-major order. A typed array does when its type is known and it is the whole of its buffer. An
`NDArray` does when its data is, the product of its dimensions is the number of the elements, and none
of them was a negative number. -/
theorem arrays_cross (p : NumpyArray) (v : TypedArray) {shape : List UInt64} {dtype : String}
    {data : TypedArray} {a : JsNdarray} (h : construct wild shape dtype data = .ok a) :
    (p.Crosses ↔ p.IsSupported ∧ (p.info.size = 0 ∨ p.info.IsPacked)) ∧
      ((∀ memory h, (p.withMemory memory h).Crosses) ↔
        p.IsSupported ∧ (p.info.size = 0 ∨ RowMajor p.info.itemsize p.info.dims)) ∧
      (v.Crosses wild ↔ v.type ≠ .uint8Clamped ∧ v.byteLength = v.buffer.data.length) ∧
      (a.Crosses wild ↔ a.data.byteLength = a.data.buffer.data.length ∧
        (a.shape.map UInt64.toNat).prod = a.data.elementLength ∧ ∀ n ∈ a.shape, n.toNat < 2 ^ 63) :=
  ⟨numpy_crosses_iff p, layout_crosses_iff p, typedArray_crosses_iff wild v,
    jsNdarray_crosses_iff wild h⟩

/-- Two rows and two columns of bytes, with their strides. -/
def square (row column : ℤ) (h : InBounds 1 4 [(2, row), (2, column)] (0 : ℕ)) : NumpyArray where
  info := ⟨[1, 2, 3, 4], 0, 1, "B", [(2, row), (2, column)]⟩
  inMemory := h
  itemsize_eq t ht := by
    obtain rfl := Option.some.inj ((ElementType.ofFormat_format .uint8).symm.trans ht)
    rfl
  dim_lt n hn := by
    obtain rfl | rfl : n = 2 ∨ n = 2 := by simpa [BufferInfo.shape] using hn
    all_goals norm_num
  size_lt := by
    show 4 * 1 < 2 ^ 63
    norm_num

/-- A `Uint8Array` in a buffer of two bytes. -/
def bytesAt (byteOffset elementLength : ℕ) (h : byteOffset + elementLength * 1 ≤ 2) : TypedArray where
  buffer := ⟨[1, 2], by decide⟩
  type := .element .uint8
  byteOffset := byteOffset
  elementLength := elementLength
  inBuffer := h

/-- The size of the `Number` `2`. -/
theorem sizeOfNumber_two : sizeOfNumber 0x4000000000000000 = 2 := by
  have hbits : (numberOfSize 2).toNat = (0x4000000000000000 : UInt64).toNat := rfl
  rw [← UInt64.toNat_inj.mp hbits]
  exact sizeOfNumber_numberOfSize (exact_of_lt (by decide)) (by decide)

/-- The bytes row by row, all bytes of the buffer, and an `NDArray` of these. -/
theorem arrays_cross_sample :
    (square 2 1 (by decide)).Crosses ∧ (bytesAt 0 2 (by decide)).Crosses (fun _ => 0) ∧
      (JsNdarray.mk [2] "uint8" (bytesAt 0 2 (by decide))).Crosses fun _ => 0 := by
  have hsizes : [(0x4000000000000000 : UInt64)].map sizeOfNumber = [2] := by
    rw [List.map_singleton, sizeOfNumber_two]
  have hconstruct : construct (fun _ => 0) [0x4000000000000000] "uint8" (bytesAt 0 2 (by decide)) =
      .ok (JsNdarray.mk [2] "uint8" (bytesAt 0 2 (by decide))) := by
    rw [← hsizes]
    refine construct_of_count _ (t := .uint8) rfl ?_
    rw [hsizes]
    rfl
  obtain ⟨hnumpy, -, htyped, hndarray⟩ :=
    arrays_cross (fun _ => 0) (square 2 1 (by decide)) (bytesAt 0 2 (by decide)) hconstruct
  refine ⟨hnumpy.mpr ⟨⟨.uint8, rfl⟩, .inr ⟨by decide, by decide⟩⟩, htyped.mpr ⟨by decide, rfl⟩,
    hndarray.mpr ⟨rfl, rfl, fun n hn => ?_⟩⟩
  rw [List.mem_singleton.mp hn]
  decide

/-- The transpose of the square does not cross unchanged, and the second byte of the buffer does not
either. -/
theorem views_not_cross :
    ¬ (square 1 2 (by decide)).Crosses ∧ ¬ (bytesAt 1 1 (by decide)).Crosses fun _ => 0 := by
  constructor
  · intro h
    obtain ⟨-, hsize | ⟨-, hpacked⟩⟩ := (numpy_crosses_iff _).mp h
    · exact absurd hsize (by decide)
    · exact absurd hpacked (by decide)
  · intro h
    exact absurd ((typedArray_crosses_iff _ _).mp h).2 (by decide)

end Ailoy.HostArrays
