import Ailoy.Vm.EmbeddingFidelity
import Ailoy.Vm.StoreOperators

/-!
# The embedding model

`tvm_embedding_model_t` of `vm/src/mlc_llm/embedding_model.cpp` with the operators of its component,
`ndarray_from_tvm` of `tvm_model.cpp`, and `float16_to_float32` of `vm/src/ndarray_util.cpp`. The
tokenizer and the compiled function `prefill` are parameters, and `TvmRuntime.Documented` is what TVM
documents of its arrays. The conversion from half precision is exact (`datum_float16ToFloat32`), so
what `infer` returns are the numbers that `prefill` computed, and `infer_reports` says for every
input whether it returns them, reports an error, or throws.
-/

namespace Ailoy

open BinaryFloat

/-! ## Half precision -/

/-- `float16_to_float32`. -/
def float16ToFloat32 (h : UInt16) : UInt32 :=
  let hSign := h &&& 0x8000
  let hExp := h &&& 0x7C00
  let hMant := h &&& 0x03FF
  let fSign := hSign.toUInt32 <<< 16
  if hExp = 0x0000 then
    if hMant = 0 then fSign
    else
      -- the quotient by 1024 and `ldexp`, of floats
      let mant := binary32.round false hMant.toNat (-10)
      let val := binary32.scale mant (-14)
      fSign ||| UInt32.ofNat val
  else if hExp = 0x7C00 then fSign ||| (0x7F800000 : UInt32) ||| hMant.toUInt32 <<< 13
  else
    let fExp := ((hExp >>> 10).toUInt32 + 112) <<< 23
    let fMant := hMant.toUInt32 <<< 13
    fSign ||| fExp ||| fMant

section Half

variable (h : UInt16)

/-- The fields that the masks leave. -/
theorem half_fields : (h &&& 0x8000).toNat = h.toNat / 2 ^ 15 * 2 ^ 15 ∧
    (h &&& 0x7C00).toNat = h.toNat / 2 ^ 10 % 2 ^ 5 * 2 ^ 10 ∧
    (h &&& 0x03FF).toNat = h.toNat % 2 ^ 10 := by
  have hlt := h.toNat_lt
  have hsign := and_field h.toNat 1 15
  have hexp := and_field h.toNat 5 10
  have hmant := and_field h.toNat 10 0
  rw [UInt16.toNat_and, UInt16.toNat_and, UInt16.toNat_and]
  refine ⟨?_, hexp, ?_⟩
  · calc h.toNat &&& 0x8000 = h.toNat / 2 ^ 15 % 2 ^ 1 * 2 ^ 15 := hsign
      _ = h.toNat / 2 ^ 15 * 2 ^ 15 := by omega
  · calc h.toNat &&& 0x03FF = h.toNat / 2 ^ 0 % 2 ^ 10 * 2 ^ 0 := hmant
      _ = h.toNat % 2 ^ 10 := by omega

/-- A sign that is a bit. -/
theorem toNat_decide_one {s : ℕ} (hs : s ≤ 1) : (decide (s = 1)).toNat = s := by
  obtain rfl | rfl : s = 0 ∨ s = 1 := by omega
  · rfl
  · rfl

/-- Three fields of a single, put together. -/
theorem toNat_single {s e m : ℕ} {fSign fExp fMant : UInt32} (hs : s ≤ 1) (he : e < 2 ^ 8)
    (hm : m < 2 ^ 23) (hfSign : fSign.toNat = s * 2 ^ 31) (hfExp : fExp.toNat = e * 2 ^ 23)
    (hfMant : fMant.toNat = m) :
    (fSign ||| fExp ||| fMant).toNat = binary32.pack (s = 1) e m := by
  rw [UInt32.toNat_or, UInt32.toNat_or, hfSign, hfExp, hfMant, or_field s (by omega)]
  have hsum : s * 2 ^ 31 + e * 2 ^ 23 = (s * 2 ^ 8 + e) * 2 ^ 23 := by ring
  rw [hsum, or_field _ hm, Format.pack, toNat_decide_one hs]
  rfl

/-- The sign of a single in half precision. -/
theorem half_sign : (((h &&& 0x8000).toUInt32 <<< 16).toNat) = h.toNat / 2 ^ 15 * 2 ^ 31 := by
  have hlt := h.toNat_lt
  rw [UInt32.toNat_shiftLeft, UInt16.toNat_toUInt32, (half_fields h).1, Nat.shiftLeft_eq]
  have hshift : (16 : UInt32).toNat % 32 = 16 := rfl
  rw [hshift]
  omega

/-- The fraction of a single in half precision. -/
theorem half_fraction : ((h &&& 0x03FF).toUInt32 <<< 13).toNat = h.toNat % 2 ^ 10 * 2 ^ 13 := by
  rw [UInt32.toNat_shiftLeft, UInt16.toNat_toUInt32, (half_fields h).2.2, Nat.shiftLeft_eq]
  have hshift : (13 : UInt32).toNat % 32 = 13 := rfl
  rw [hshift]
  omega

/-- The exponent of a single in half precision. -/
theorem half_exponent : ((((h &&& 0x7C00) >>> 10).toUInt32 + 112) <<< 23).toNat =
    (h.toNat / 2 ^ 10 % 2 ^ 5 + 112) * 2 ^ 23 := by
  have hshift : (10 : UInt16).toNat % 16 = 10 := rfl
  have hplace : (23 : UInt32).toNat % 32 = 23 := rfl
  have hoffset : (112 : UInt32).toNat = 112 := rfl
  rw [UInt32.toNat_shiftLeft, UInt32.toNat_add, UInt16.toNat_toUInt32, UInt16.toNat_shiftRight,
    (half_fields h).2.1, hshift, hplace, hoffset, Nat.shiftRight_eq_div_pow, Nat.shiftLeft_eq]
  omega

/-- What a number in half precision stands for. -/
theorem datum_half : binary16.datum h.toNat =
    if h.toNat / 2 ^ 10 % 2 ^ 5 = 31 then
      if h.toNat % 2 ^ 10 = 0 then .infinite (h.toNat / 2 ^ 15 = 1) else .nan
    else if h.toNat / 2 ^ 10 % 2 ^ 5 = 0 then
      .finite (h.toNat / 2 ^ 15 = 1) ((h.toNat % 2 ^ 10 : ℕ) * 2 ^ (-24 : ℤ))
    else .finite (h.toNat / 2 ^ 15 = 1) ((2 ^ 10 + (h.toNat % 2 ^ 10 : ℕ)) *
      2 ^ ((h.toNat / 2 ^ 10 % 2 ^ 5 : ℕ) - 15 - 10 : ℤ)) := by
  have hlt := h.toNat_lt
  have hsign : binary16.negative h.toNat = decide (h.toNat / 2 ^ 15 = 1) := by
    refine decide_eq_decide.mpr ?_
    show h.toNat / 2 ^ 10 / 2 ^ 5 % 2 = 1 ↔ h.toNat / 2 ^ 15 = 1
    omega
  unfold Format.datum
  rw [hsign]
  rfl

/-- A subnormal number in half precision has a hidden bit in single precision. -/
theorem datum_subnormal {m : ℕ} (hm : m ≠ 0) (hlt : m < 2 ^ 10) {s : ℕ} (hs : s ≤ 1)
    {fSign : UInt32} (hfSign : fSign.toNat = s * 2 ^ 31) :
    binary32.datum (fSign ||| UInt32.ofNat (binary32.scale (binary32.round false m (-10)) (-14))).toNat =
      .finite (s = 1) (m * 2 ^ (-24 : ℤ)) := by
  have hlog : Nat.log2 m < 10 := (Nat.log2_lt hm).mpr hlt
  have hfrac : binary32.fracBits = 23 := rfl
  have hbias : binary32.bias = 127 := rfl
  have hmax : binary32.maxExponent = 255 := rfl
  -- The quotient is a number of the format, and it is not smaller than `2 ^ (-10)`.
  have hmant : binary32.datum (binary32.round false m (-10)) = .finite false (m * 2 ^ (-10 : ℤ)) :=
    Format.datum_round_exact (by decide) hm (by rw [hfrac]; omega) (by rw [hfrac, hbias]; omega)
      (by rw [hbias, hmax]; omega) false
  have hexp : (-10 : ℤ) + 127 ≤ binary32.exponent (binary32.round false m (-10)) := by
    refine Format.le_exponent hmant (by rw [hbias]; omega) ?_
    have hone : (1 : ℚ) ≤ m := by exact_mod_cast Nat.one_le_iff_ne_zero.mpr hm
    exact le_mul_of_one_le_left (zpow_nonneg (by norm_num) _) hone
  have hhigh : binary32.exponent (binary32.round false m (-10)) < 255 := by
    by_contra hge
    have hlt := binary32.exponent_lt (binary32.round false m (-10))
    have heq : binary32.exponent (binary32.round false m (-10)) = binary32.maxExponent := by
      have hbits : 2 ^ binary32.expBits = 256 := rfl
      omega
    unfold Format.datum at hmant
    rw [if_pos heq] at hmant
    split_ifs at hmant
  obtain ⟨m', e, hscale, hdatum⟩ := Format.scale_eq_round (n := -14) (by decide) hmant (by omega)
    (by omega) (by rw [hmax]; omega)
  -- The sign is in front of it.
  have hword : (fSign ||| UInt32.ofNat (binary32.round false m' e)).toNat =
      binary32.round (s = 1) m' e := by
    have hround : binary32.round false m' e < 2 ^ 31 := by
      obtain ⟨x, hx, hpack⟩ := Format.round_eq_pack (f := binary32) false m' e
      rw [hpack]
      have hx' : x < 2 ^ 8 * 2 ^ 23 := hx
      show (0 * 2 ^ 8 + 0) * 2 ^ 23 + x < 2 ^ 31
      omega
    have hnat : (UInt32.ofNat (binary32.round false m' e)).toNat = binary32.round false m' e :=
      UInt32.toNat_ofNat_of_lt' (Nat.lt_trans hround (by decide))
    have hpow : s * 2 ^ binary32.expBits * 2 ^ binary32.fracBits = s * 2 ^ 31 := Nat.mul_assoc s _ _
    rw [UInt32.toNat_or, hfSign, hnat, or_field s hround,
      Format.round_sign (decide (s = 1)), toNat_decide_one hs, hpow]
  rw [hscale, hword, hdatum, mul_assoc, ← zpow_add₀ two_ne_zero]
  rfl

/-- A number with the sign and the fraction of one in half precision, and another exponent. -/
theorem datum_half_single (fExp : UInt32) {e : ℕ} (he : e < 2 ^ 8) (hfExp : fExp.toNat = e * 2 ^ 23) :
    binary32.datum ((h &&& 0x8000).toUInt32 <<< 16 ||| fExp |||
      (h &&& 0x03FF).toUInt32 <<< 13).toNat =
    if e = 255 then
      if h.toNat % 2 ^ 10 * 2 ^ 13 = 0 then .infinite (h.toNat / 2 ^ 15 = 1) else .nan
    else if e = 0 then
      .finite (h.toNat / 2 ^ 15 = 1) ((h.toNat % 2 ^ 10 * 2 ^ 13 : ℕ) * 2 ^ (-149 : ℤ))
    else .finite (h.toNat / 2 ^ 15 = 1)
      ((2 ^ 23 + (h.toNat % 2 ^ 10 * 2 ^ 13 : ℕ)) * 2 ^ (e - 127 - 23 : ℤ)) := by
  have hlt := h.toNat_lt
  have hm : h.toNat % 2 ^ 10 * 2 ^ 13 < 2 ^ 23 := by omega
  rw [toNat_single (by omega) he hm (half_sign h) hfExp (half_fraction h)]
  exact Format.datum_pack binary32 he hm

/-- The exponents differ by the biases, and the fractions by the 13 new bits. -/
theorem half_magnitude (m e : ℕ) :
    ((2 ^ 23 + (m * 2 ^ 13 : ℕ)) * 2 ^ ((e + 112 : ℕ) - 127 - 23 : ℤ) : ℚ) =
      (2 ^ 10 + (m : ℕ)) * 2 ^ ((e : ℕ) - 15 - 10 : ℤ) := by
  have hexp : ((e + 112 : ℕ) - 127 - 23 : ℤ) = -13 + ((e : ℕ) - 15 - 10) := by omega
  have hbits : (2 : ℚ) ^ (-13 : ℤ) = 1 / 2 ^ 13 := by norm_num
  rw [hexp, zpow_add₀ two_ne_zero, hbits]
  generalize (2 : ℚ) ^ ((e : ℕ) - 15 - 10 : ℤ) = scale
  push_cast
  ring

/-- The conversion is exact. -/
theorem datum_float16ToFloat32 :
    binary32.datum (float16ToFloat32 h).toNat = binary16.datum h.toNat := by
  have hlt := h.toNat_lt
  obtain ⟨-, hexp, hmant⟩ := half_fields h
  have hsign := half_sign h
  have hs : h.toNat / 2 ^ 15 ≤ 1 := by omega
  have hexpZero : h &&& 0x7C00 = 0 ↔ h.toNat / 2 ^ 10 % 2 ^ 5 = 0 := by
    rw [← UInt16.toNat_inj, hexp]
    show _ = 0 ↔ _
    omega
  have hexpMax : h &&& 0x7C00 = 0x7C00 ↔ h.toNat / 2 ^ 10 % 2 ^ 5 = 31 := by
    rw [← UInt16.toNat_inj, hexp]
    show _ = 31744 ↔ _
    omega
  have hmantZero : h &&& 0x03FF = 0 ↔ h.toNat % 2 ^ 10 = 0 := by
    rw [← UInt16.toNat_inj, hmant]
    rfl
  rw [datum_half]
  unfold float16ToFloat32
  dsimp only
  by_cases hzero : h &&& 0x7C00 = 0
  · have hfield := hexpZero.mp hzero
    have hnot : ¬ h.toNat / 2 ^ 10 % 2 ^ 5 = 31 := by omega
    rw [if_pos hzero, if_neg hnot, if_pos hfield]
    by_cases hmantissa : h &&& 0x03FF = 0
    · have hfields : h.toNat / 2 ^ 15 * 2 ^ 31 = binary32.pack (h.toNat / 2 ^ 15 = 1) 0 0 := by
        obtain hbit | hbit : h.toNat / 2 ^ 15 = 0 ∨ h.toNat / 2 ^ 15 = 1 := by omega
        · rw [hbit]
          rfl
        · rw [hbit]
          rfl
      rw [if_pos hmantissa, hsign, hfields,
        Format.datum_pack binary32 (Nat.two_pow_pos _) (Nat.two_pow_pos _), hmantZero.mp hmantissa,
        if_neg (by decide), if_pos rfl, Nat.cast_zero, zero_mul, zero_mul]
    · rw [if_neg hmantissa, hmant]
      exact datum_subnormal (fun h => hmantissa (hmantZero.mpr h)) (Nat.mod_lt _ (by decide)) hs hsign
  · have hfield : ¬ h.toNat / 2 ^ 10 % 2 ^ 5 = 0 := fun h => hzero (hexpZero.mpr h)
    rw [if_neg hzero]
    by_cases hmax : h &&& 0x7C00 = 0x7C00
    · rw [if_pos hmax, if_pos (hexpMax.mp hmax),
        datum_half_single h (0x7F800000 : UInt32) (e := 255) (by decide) rfl, if_pos rfl]
      exact if_congr (by omega) rfl rfl
    · have hnot : ¬ h.toNat / 2 ^ 10 % 2 ^ 5 = 31 := fun h => hmax (hexpMax.mpr h)
      have hlarge : ¬ h.toNat / 2 ^ 10 % 2 ^ 5 + 112 = 255 := by omega
      have hsmall : ¬ h.toNat / 2 ^ 10 % 2 ^ 5 + 112 = 0 := by omega
      have hword := datum_half_single h _ (by omega) (half_exponent h)
      rw [if_neg hlarge, if_neg hsmall] at hword
      rw [if_neg hmax, if_neg hnot, if_neg hfield]
      rw [hword, half_magnitude]

end Half

/-! ## Arrays of TVM -/

/-- The bytes of an element of a type. -/
def DLDataType.itemsize (dtype : DLDataType) : ℕ := (dtype.bits.toNat * dtype.lanes.toNat + 7) / 8

/-- `tvm::runtime::NDArray`. TVM makes no array with a negative dimension or with a type that has no
lanes, and an array has memory for its elements. -/
structure TvmNdarray where
  shape : List Int64
  dtype : DLDataType
  data : List UInt8
  lanes : 1 ≤ dtype.lanes.toNat
  dims : ∀ dim ∈ shape, 0 ≤ dim.toInt
  size : data.length = (shape.map fun dim => dim.toInt.toNat).prod * dtype.itemsize
  memory : data.length < 2 ^ 63

/-- `kDLInt` with 32 bits. -/
def int32 : DLDataType := ⟨0, 32, 1⟩

/-- The functions of TVM. `empty` is `NDArray::Empty`, whose array holds what the memory held before;
`copyToBytes` is `CopyToBytes`, and `back` is that of a `ShapeTuple`. -/
structure TvmRuntime where
  empty : List Int64 → DLDataType → Except Fault TvmNdarray
  copyToBytes : TvmNdarray → ℕ → Except Fault (List UInt8)
  back : List Int64 → Except Fault Int64

/-- What TVM documents. There is an array for every shape that has one, memory aside; the bytes are
copied when as many are asked for as there are; and a shape with a dimension has a last one. -/
structure TvmRuntime.Documented (T : TvmRuntime) : Prop where
  empty_ok (shape : List Int64) (dtype : DLDataType) : 1 ≤ dtype.lanes.toNat →
    (∀ dim ∈ shape, 0 ≤ dim.toInt) →
    (shape.map fun dim => dim.toInt.toNat).prod * dtype.itemsize < 2 ^ 63 →
    ∃ a, T.empty shape dtype = .ok a
  empty_eq (shape : List Int64) (dtype : DLDataType) (a : TvmNdarray) :
    T.empty shape dtype = .ok a → a.shape = shape ∧ a.dtype = dtype
  copyToBytes_ok (a : TvmNdarray) : T.copyToBytes a a.data.length = .ok a.data
  copyToBytes_error (a : TvmNdarray) (n : ℕ) : n ≠ a.data.length → ∃ f, T.copyToBytes a n = .error f
  back_append (dims : List Int64) (dim : Int64) : T.back (dims ++ [dim]) = .ok dim
  back_nil : ∃ f, T.back [] = .error f

namespace TvmNdarray

variable (a : TvmNdarray)

/-- A loop that writes elements to the memory of the array, from the first one on. -/
def write (bytes : List UInt8) : Except Fault TvmNdarray :=
  if h : bytes.length ≤ a.data.length then
    have hlen : (bytes ++ a.data.drop bytes.length).length = a.data.length := by
      rw [List.length_append, List.length_drop]
      omega
    .ok { a with
      data := bytes ++ a.data.drop bytes.length
      size := hlen.trans a.size
      memory := hlen.trans_lt a.memory }
  else .error .outOfBounds

/-- The product of the dimensions, as an `int64_t`. -/
def count : Int64 := a.shape.foldl (fun size dim => size * dim) 1

/-- The number at the place `i`, of an array of floats of 16 or of 32 bits. -/
def number (i : ℕ) : Datum :=
  if a.dtype.bits = 16 then binary16.datum (wordAt 2 a.data i)
  else binary32.datum (wordAt 4 a.data i)

end TvmNdarray

/-- `ndarray_from_tvm`. The product of the dimensions is an `int`, and a vector of a negative size
throws. -/
def ndarrayFromTvm (T : TvmRuntime) (a : TvmNdarray) : Except Fault Ndarray := do
  let shape := a.shape.map Int64.toUInt64
  let nbytes := (⟨shape, a.dtype, []⟩ : Ndarray).size
  if 2 ^ 63 ≤ nbytes then
    .error (.exception "cannot create std::vector larger than max_size()")
  else
    let data ← T.copyToBytes a nbytes
    return ⟨shape, a.dtype, data⟩

/-! ## The model -/

/-- `tvm_embedding_model_t` with its tokenizer: `encode` of the tokenizer, and the compiled function
`prefill` with the parameters of the model. The copies of the arrays on the device are left out. -/
structure TvmEmbeddingModel where
  encode : String → List Int32
  prefill : TvmNdarray → TvmNdarray → Except Fault TvmNdarray

/-- `postprocess_embedding_ndarray`, which returns the array `target` with what is written to it. -/
def postprocessEmbeddingNdarray (source target : TvmNdarray) : Except Fault TvmNdarray :=
  if ¬ (source.dtype.code = 2 ∧ (source.dtype.bits = 16 ∨ source.dtype.bits = 32)) then
    .error (.exception "Internal error")
  else if ¬ (target.dtype.code = 2 ∧ target.dtype.bits = 32) then .error (.exception "Internal error")
  else
    match target.shape with
    | [toSize] =>
      if source.count < toSize then
        .error (.exception "size of input NDArray is too small to fill output NDArray.")
      else if source.dtype.bits = 16 then do
        let halves ← readWords 2 toSize.toUInt64.toNat source.data
        target.write (halves.flatMap fun h => leBytes 4 (float16ToFloat32 (UInt16.ofNat h)).toNat)
      else do
        let floats ← readWords 4 toSize.toUInt64.toNat source.data
        target.write (floats.flatMap (leBytes 4))
    | _ => .error (.exception "Internal error")

namespace TvmEmbeddingModel

variable (T : TvmRuntime) (m : TvmEmbeddingModel)

/-- What `prefill` makes of the tokens and of a mask of ones. -/
def logits (tokens : List Int32) : Except Fault TvmNdarray := do
  -- a length that is no `int32_t` is negative, and there is no array of it, or it is a smaller one
  let tokensLength := (Int32.ofNat tokens.length).toInt64
  let input ← T.empty [1, tokensLength] int32
  let mask ← T.empty [1, tokensLength] int32
  -- the loop counts up to the length as a `size_t`
  let n := tokensLength.toUInt64.toNat
  let input ← input.write ((tokens.take n).flatMap fun token => leBytes 4 token.toUInt32.toNat)
  let mask ← mask.write ((tokens.take n).flatMap fun _ => leBytes 4 1)
  m.prefill input mask

/-- `infer`. -/
def infer (tokens : List Int32) : Except Fault TvmNdarray := do
  let logits ← m.logits T tokens
  let dim ← T.back logits.shape
  let processed ← T.empty [dim] float32
  postprocessEmbeddingNdarray logits processed

section Operators

variable (getType : Value → String)

/-- The operator `infer`. -/
def inferOp : Value → Except Fault (Except ErrorOutput Value)
  | .map inputs =>
    match inputs.lookup "prompt" with
    | none => .ok (.error (.rangeError "TVM Embedding Model: infer" "prompt"))
    | some (.string prompt) => do
      let embedding ← m.infer T (m.encode prompt)
      let embedding ← ndarrayFromTvm T embedding
      return .ok (.map [("embedding", embedding.value)])
    | some v =>
      .ok (.error (.typeError "TVM Embedding Model: infer" "prompt" "string_t" (getType v)))
  | v => .ok (.error (.typeError "TVM Embedding Model: infer" "inputs" "map_t" (getType v)))

/-- The operator `tokenize`. Its error for a prompt of another type reads another key. -/
def tokenizeOp : Value → Except Fault (Except ErrorOutput Value)
  | .map inputs =>
    match inputs.lookup "prompt" with
    | none => .ok (.error ⟨"Input prompt not specified"⟩)
    | some (.string prompt) =>
      .ok (.ok (.map [("tokens", .array ((m.encode prompt).map fun id => .int id.toInt64))]))
    | some _ => do
      let v ← Value.mapAt inputs "prmopt"
      return .error (.typeError "TVM Embedding Model: infer" "prompt" "string_t" (getType v))
  | v => .ok (.error (.typeError "TVM Embedding Model: infer" "inputs" "map_t" (getType v)))

end Operators

end TvmEmbeddingModel

/-! ## What is returned -/

/-- A dimension as a `size_t`. -/
theorem toUInt64_of_toInt {dim : Int64} {d : ℕ} (h : dim.toInt = d) :
    dim.toUInt64 = UInt64.ofNat d ∧ d < 2 ^ 63 := by
  have hlt := dim.toInt_lt
  have hdim : dim = Int64.ofNat d := by rw [← Int64.ofInt_toInt dim, h, Int64.ofInt_eq_ofNat]
  refine ⟨?_, by omega⟩
  rw [hdim, Int64.toUInt64_ofNat']

namespace TvmNdarray

variable {a : TvmNdarray}

/-- A product of numbers of 64 bits. -/
theorem toInt_foldl (dims : List Int64) (size : Int64) :
    (dims.foldl (fun size dim => size * dim) size).toInt =
      (size.toInt * (dims.map Int64.toInt).prod).bmod (2 ^ 64) := by
  induction dims generalizing size with
  | nil =>
    rw [List.foldl_nil, List.map_nil, List.prod_nil, mul_one]
    exact (Int64.toInt_bmod size).symm
  | cons dim dims ih =>
    rw [List.foldl_cons, ih, Int64.toInt_mul, Int.bmod_mul_bmod, List.map_cons, List.prod_cons,
      mul_assoc]

/-- The number of elements. -/
theorem toInt_count (hbits : a.dtype.bits = 16 ∨ a.dtype.bits = 32) :
    a.count.toInt = (a.shape.map fun dim => dim.toInt.toNat).prod := by
  have hitem : 1 ≤ a.dtype.itemsize := by
    have hlanes := a.lanes
    have hwidth : 16 ≤ a.dtype.bits.toNat := by
      rcases hbits with hbits | hbits
      · rw [hbits]
        decide
      · rw [hbits]
        decide
    have hmul : 16 * 1 ≤ a.dtype.bits.toNat * a.dtype.lanes.toNat := Nat.mul_le_mul hwidth hlanes
    unfold DLDataType.itemsize
    omega
  have hprod : (a.shape.map Int64.toInt).prod =
      (((a.shape.map fun dim => dim.toInt.toNat).prod : ℕ) : ℤ) := by
    rw [← Nat.coe_castRingHom, map_list_prod, List.map_map]
    refine congrArg List.prod (List.map_congr_left fun dim hdim => ?_)
    exact (Int.toNat_of_nonneg (a.dims dim hdim)).symm
  have hle : (a.shape.map fun dim => dim.toInt.toNat).prod ≤ a.data.length := by
    rw [a.size]
    exact Nat.le_mul_of_pos_right _ hitem
  have hmemory := a.memory
  have hone : (1 : Int64).toInt = 1 := rfl
  rw [count, toInt_foldl, hprod, hone, one_mul]
  exact Int.bmod_eq_of_le (by omega) (by omega)

/-- A loop that writes numbers to all of the array. -/
theorem write_words {words : List ℕ} (hlen : a.data.length = 4 * words.length)
    (hwords : ∀ k ∈ words, k < 256 ^ 4) :
    ∃ out, a.write (words.flatMap (leBytes 4)) = .ok out ∧ out.shape = a.shape ∧
      out.dtype = a.dtype ∧ (List.range words.length).map (wordAt 4 out.data) = words := by
  have hbytes : (words.flatMap (leBytes 4)).length = a.data.length := by
    rw [hlen]
    simp [List.length_flatMap, Nat.mul_comm]
  unfold write
  rw [dif_pos hbytes.le]
  refine ⟨_, rfl, rfl, rfl, ?_⟩
  dsimp only
  rw [hbytes, List.drop_length, List.append_nil, words_flatMap_leBytes hwords]

/-- An array of numbers in half or in single precision with at least as many of them as its last
dimension `d` says. -/
structure Suits (a : TvmNdarray) (d : ℕ) : Prop where
  float : a.dtype.code = 2 ∧ (a.dtype.bits = 16 ∨ a.dtype.bits = 32)
  last : ∃ (dims : List Int64) (dim : Int64), a.shape = dims ++ [dim] ∧ dim.toInt = d
  enough : d ≤ (a.shape.map fun dim => dim.toInt.toNat).prod

/-- The data has the numbers. -/
theorem Suits.le {d : ℕ} (h : a.Suits d) {w : ℕ} (hw : a.dtype.bits.toNat = 8 * w) :
    w * d ≤ a.data.length := by
  have hlanes := a.lanes
  have hitem : w ≤ a.dtype.itemsize := by
    have hmul : 8 * w * 1 ≤ 8 * w * a.dtype.lanes.toNat := Nat.mul_le_mul_left _ hlanes
    unfold DLDataType.itemsize
    rw [hw]
    omega
  rw [a.size, Nat.mul_comm w d]
  exact Nat.mul_le_mul h.enough hitem

end TvmNdarray

/-- What `postprocess_embedding_ndarray` makes of numbers in half or in single precision: all of the
array is written, with the same numbers in single precision. -/
theorem postprocess_of_suits {source target : TvmNdarray} {d : ℕ} {dim : Int64} (h : source.Suits d)
    (hdim : dim.toInt = d) (hshape : target.shape = [dim]) (hdtype : target.dtype = float32) :
    ∃ out, postprocessEmbeddingNdarray source target = .ok out ∧ out.shape = [dim] ∧
      out.dtype = float32 ∧
      ((List.range d).map (wordAt 4 out.data)).map binary32.datum =
        (List.range d).map source.number := by
  have hlen : target.data.length = 4 * d := by
    rw [target.size, hshape, hdtype, List.map_singleton, List.prod_singleton, hdim, Int.toNat_natCast,
      Nat.mul_comm]
    rfl
  have hwrite : ∀ words : List ℕ, words.length = d → (∀ k ∈ words, k < 256 ^ 4) →
      words.map binary32.datum = (List.range d).map source.number →
      ∃ out, target.write (words.flatMap (leBytes 4)) = .ok out ∧ out.shape = [dim] ∧
        out.dtype = float32 ∧
        ((List.range d).map (wordAt 4 out.data)).map binary32.datum =
          (List.range d).map source.number := by
    rintro words rfl hwords hdatum
    obtain ⟨out, hout, houtShape, houtDtype, houtWords⟩ := target.write_words hlen hwords
    exact ⟨out, hout, houtShape.trans hshape, houtDtype.trans hdtype, houtWords.symm ▸ hdatum⟩
  have hread : ∀ w, source.dtype.bits.toNat = 8 * w →
      readWords w dim.toUInt64.toNat source.data =
        .ok ((List.range d).map (wordAt w source.data)) := by
    intro w hw
    obtain ⟨hcount, hlt⟩ := toUInt64_of_toInt hdim
    have hsize : UInt64.size = 2 ^ 64 := rfl
    rw [hcount, UInt64.toNat_ofNat_of_lt' (by omega), readWords_of_le (h.le hw)]
  have henough : ¬ source.count < dim := by
    have hle := h.enough
    rw [Int64.lt_iff_toInt_lt, TvmNdarray.toInt_count h.float.2, hdim]
    omega
  unfold postprocessEmbeddingNdarray
  rw [if_neg (not_not.mpr h.float), if_neg (by rw [hdtype]; decide), hshape]
  dsimp only
  rw [if_neg henough]
  by_cases hbits : source.dtype.bits = 16
  · have hnumber : source.number = fun i => binary16.datum (wordAt 2 source.data i) :=
      funext fun i => if_pos hbits
    rw [if_pos hbits, hread 2 (congrArg UInt8.toNat hbits), Except.ok_bind, hnumber]
    have hconvert := hwrite (((List.range d).map (wordAt 2 source.data)).map fun h =>
      (float16ToFloat32 (UInt16.ofNat h)).toNat)
    rw [List.flatMap_map, hnumber] at hconvert
    refine hconvert ?_ ?_ ?_
    · simp
    · intro k hk
      obtain ⟨h, -, rfl⟩ := List.mem_map.mp hk
      exact UInt32.toNat_lt _
    · rw [List.map_map, List.map_map]
      refine List.map_congr_left fun i _ => ?_
      have hlt : wordAt 2 source.data i < 2 ^ 16 := wordAt_lt 2 source.data i
      show binary32.datum (float16ToFloat32 (UInt16.ofNat (wordAt 2 source.data i))).toNat = _
      rw [datum_float16ToFloat32, UInt16.toNat_ofNat_of_lt' hlt]
  · have hsingle : source.dtype.bits = 32 := h.float.2.resolve_left hbits
    have hnumber : source.number = fun i => binary32.datum (wordAt 4 source.data i) :=
      funext fun i => if_neg hbits
    rw [if_neg hbits, hread 4 (congrArg UInt8.toNat hsingle), Except.ok_bind]
    refine hwrite _ (by simp) ?_ ?_
    · intro k hk
      obtain ⟨i, -, rfl⟩ := List.mem_map.mp hk
      exact wordAt_lt 4 source.data i
    · rw [hnumber, List.map_map]
      rfl

/-- Anything else throws. -/
theorem postprocess_throws {source target : TvmNdarray} {d : ℕ} {dim : Int64} (hdim : dim.toInt = d)
    (hshape : target.shape = [dim])
    (h : source.dtype.code = 2 ∧ (source.dtype.bits = 16 ∨ source.dtype.bits = 32) →
      ¬ d ≤ (source.shape.map fun dim => dim.toInt.toNat).prod) :
    ∃ f, postprocessEmbeddingNdarray source target = .error f := by
  unfold postprocessEmbeddingNdarray
  by_cases hsource : source.dtype.code = 2 ∧ (source.dtype.bits = 16 ∨ source.dtype.bits = 32)
  · rw [if_neg (not_not.mpr hsource)]
    by_cases htarget : target.dtype.code = 2 ∧ target.dtype.bits = 32
    · have hfew : source.count < dim := by
        have hlt := h hsource
        rw [Int64.lt_iff_toInt_lt, TvmNdarray.toInt_count hsource.2, hdim]
        omega
      rw [if_neg (not_not.mpr htarget), hshape]
      dsimp only
      rw [if_pos hfew]
      exact ⟨_, rfl⟩
    · rw [if_pos htarget]
      exact ⟨_, rfl⟩
  · rw [if_pos hsource]
    exact ⟨_, rfl⟩

/-- A vector of floats is taken over, unless its dimension is no `int`. -/
theorem ndarrayFromTvm_vector {T : TvmRuntime} (hT : T.Documented) {a : TvmNdarray} {dim : Int64}
    {d : ℕ} (hshape : a.shape = [dim]) (hdim : dim.toInt = d) (hdtype : a.dtype = float32) :
    (d < 2 ^ 31 → ndarrayFromTvm T a = .ok ⟨[UInt64.ofNat d], float32, a.data⟩) ∧
      (2 ^ 31 ≤ d → ∃ f, ndarrayFromTvm T a = .error f) := by
  have hlen : a.data.length = d * 4 := by
    rw [a.size, hshape, hdtype, List.map_singleton, List.prod_singleton, hdim, Int.toNat_natCast]
    rfl
  have hmemory := a.memory
  have hdims : a.shape.map Int64.toUInt64 = [UInt64.ofNat d] := by
    rw [hshape, List.map_singleton, (toUInt64_of_toInt hdim).1]
  have hitem : (⟨[UInt64.ofNat d], float32, []⟩ : Ndarray).itemsize = 4 :=
    Ndarray.itemsize_float32 rfl
  unfold ndarrayFromTvm
  rw [hdims, hdtype]
  dsimp only
  constructor
  · intro hd
    have hsize : (⟨[UInt64.ofNat d], float32, []⟩ : Ndarray).size = a.data.length := by
      rw [Ndarray.size_vector hd rfl, hitem, hlen]
    rw [hsize, if_neg (by omega), hT.copyToBytes_ok]
    rfl
  · intro hd
    -- The product is an `int`, so it is not the dimension.
    have hsize : (⟨[UInt64.ofNat d], float32, []⟩ : Ndarray).size ≠ a.data.length := by
      unfold Ndarray.size
      rw [hitem, hlen]
      generalize (⟨[UInt64.ofNat d], float32, []⟩ : Ndarray).count = product
      have hlow := product.le_toInt
      have hhigh := product.toInt_lt
      push_cast
      omega
    generalize (⟨[UInt64.ofNat d], float32, []⟩ : Ndarray).size = nbytes at *
    by_cases hlarge : 2 ^ 63 ≤ nbytes
    · rw [if_pos hlarge]
      exact ⟨_, rfl⟩
    · obtain ⟨f, hf⟩ := hT.copyToBytes_error a nbytes hsize
      rw [if_neg hlarge, hf]
      exact ⟨f, rfl⟩

namespace TvmEmbeddingModel

variable {T : TvmRuntime} {m : TvmEmbeddingModel}

/-- A row of `n` numbers of 32 bits is made, and all of it is written. -/
theorem exists_filled (hT : T.Documented) {n : ℕ} (hn : n < 2 ^ 31) (words : List ℕ)
    (hwords : words.length = n) (hlt : ∀ k ∈ words, k < 256 ^ 4) :
    ∃ a out : TvmNdarray, T.empty [1, Int64.ofNat n] int32 = .ok a ∧
      a.write (words.flatMap (leBytes 4)) = .ok out ∧ out.shape = [1, Int64.ofNat n] ∧
      out.dtype = int32 ∧ (List.range n).map (wordAt 4 out.data) = words := by
  have hdim : (Int64.ofNat n).toInt = n := Int64.toInt_ofNat_of_lt (by omega)
  have hprod : (([1, Int64.ofNat n] : List Int64).map fun dim =>
      dim.toInt.toNat).prod * int32.itemsize = 4 * n := by
    have hone : (1 : Int64).toInt.toNat = 1 := rfl
    have hitem : int32.itemsize = 4 := rfl
    rw [List.map_cons, List.map_singleton, List.prod_cons, List.prod_singleton, hdim,
      Int.toNat_natCast, hone, hitem, Nat.one_mul, Nat.mul_comm]
  obtain ⟨a, ha⟩ := hT.empty_ok [1, Int64.ofNat n] int32 (by decide) (by
    intro dim hmem
    rcases List.mem_cons.mp hmem with rfl | hmem
    · decide
    · rw [List.mem_singleton.mp hmem, hdim]
      exact Int.natCast_nonneg _) (by rw [hprod]; omega)
  obtain ⟨hshape, hdtype⟩ := hT.empty_eq _ _ _ ha
  have hsize : a.data.length = 4 * words.length := by rw [a.size, hshape, hdtype, hprod, hwords]
  obtain ⟨out, hout, houtShape, houtDtype, houtWords⟩ := a.write_words hsize hlt
  rw [hwords] at houtWords
  exact ⟨a, out, ha, hout, houtShape.trans hshape, houtDtype.trans hdtype, houtWords⟩

/-- `prefill` is called with the tokens, and with as many ones as there are. -/
theorem logits_eq (m : TvmEmbeddingModel) (hT : T.Documented) {tokens : List Int32}
    (hlen : tokens.length < 2 ^ 31) :
    ∃ input mask : TvmNdarray, m.logits T tokens = m.prefill input mask ∧
      (input.shape = [1, Int64.ofNat tokens.length] ∧ input.dtype = int32 ∧
        (List.range tokens.length).map (wordAt 4 input.data) =
          tokens.map fun token => token.toUInt32.toNat) ∧
      (mask.shape = [1, Int64.ofNat tokens.length] ∧ mask.dtype = int32 ∧
        (List.range tokens.length).map (wordAt 4 mask.data) = tokens.map fun _ => 1) := by
  have hlength : (Int32.ofNat tokens.length).toInt64 = Int64.ofNat tokens.length := by
    rw [← Int64.toInt_inj, Int32.toInt_toInt64, Int32.toInt_ofNat_of_lt hlen,
      Int64.toInt_ofNat_of_lt (by omega)]
  obtain ⟨a, input, ha, hinput, hinputs⟩ := exists_filled hT hlen
    (tokens.map fun token => token.toUInt32.toNat) (List.length_map _) (by
      intro k hk
      obtain ⟨token, -, rfl⟩ := List.mem_map.mp hk
      exact UInt32.toNat_lt _)
  obtain ⟨b, mask, hb, hmask, hmasks⟩ := exists_filled hT hlen (tokens.map fun _ => 1)
    (List.length_map _) (by
      intro k hk
      obtain ⟨token, -, rfl⟩ := List.mem_map.mp hk
      decide)
  obtain rfl : a = b := Except.ok.inj (ha.symm.trans hb)
  refine ⟨input, mask, ?_, hinputs, hmasks⟩
  rw [List.flatMap_map] at hinput hmask
  have hcount : (Int64.ofNat tokens.length).toUInt64.toNat = tokens.length := by
    have hsize : UInt64.size = 2 ^ 64 := rfl
    rw [Int64.toUInt64_ofNat', UInt64.toNat_ofNat_of_lt' (by omega)]
  unfold logits
  rw [hlength]
  dsimp only
  rw [hcount, List.take_length, ha, Except.ok_bind, Except.ok_bind, hinput, Except.ok_bind, hmask,
    Except.ok_bind]

/-- The result of `infer`, when `prefill` returns something that suits. -/
theorem infer_of_suits (hT : T.Documented) {tokens : List Int32} {logits : TvmNdarray} {d : ℕ}
    (hlogits : m.logits T tokens = .ok logits) (h : logits.Suits d) (hd : d < 2 ^ 31) :
    ∃ e : Ndarray, (m.infer T tokens >>= ndarrayFromTvm T) = .ok e ∧ e.IsEmbedding d ∧
      (e.floats d).map binary32.datum = (List.range d).map logits.number := by
  obtain ⟨dims, dim, hshape, hdim⟩ := h.last
  have hback : T.back logits.shape = .ok dim := by rw [hshape, hT.back_append]
  have hprod : (([dim] : List Int64).map fun dim => dim.toInt.toNat).prod * float32.itemsize =
      d * 4 := by
    rw [List.map_singleton, List.prod_singleton, hdim, Int.toNat_natCast]
    rfl
  obtain ⟨processed, hprocessed⟩ := hT.empty_ok [dim] float32 (by decide) (by
    intro dim' hmem
    rw [List.mem_singleton.mp hmem, hdim]
    exact Int.natCast_nonneg _) (by rw [hprod]; omega)
  obtain ⟨hprocessedShape, hprocessedDtype⟩ := hT.empty_eq _ _ _ hprocessed
  obtain ⟨out, hout, houtShape, houtDtype, hfloats⟩ :=
    postprocess_of_suits h hdim hprocessedShape hprocessedDtype
  have hinfer : m.infer T tokens = .ok out := by
    unfold infer
    rw [hlogits, Except.ok_bind, hback, Except.ok_bind, hprocessed, Except.ok_bind, hout]
  refine ⟨⟨[UInt64.ofNat d], float32, out.data⟩, ?_, ⟨rfl, rfl, ?_⟩, hfloats⟩
  · rw [hinfer, Except.ok_bind]
    exact (ndarrayFromTvm_vector hT houtShape hdim houtDtype).1 hd
  · show out.data.length = 4 * d
    rw [out.size, houtShape, houtDtype, hprod, Nat.mul_comm]

/-- `infer` throws otherwise. -/
theorem infer_throws (hT : T.Documented) {tokens : List Int32}
    (h : ∀ logits d, m.logits T tokens = .ok logits → logits.Suits d → 2 ^ 31 ≤ d) :
    ∃ f, (m.infer T tokens >>= ndarrayFromTvm T) = .error f := by
  unfold infer
  cases hlogits : m.logits T tokens with
  | error f => exact ⟨f, rfl⟩
  | ok logits =>
    rw [Except.ok_bind]
    rcases List.eq_nil_or_concat logits.shape with hnil | ⟨dims, dim, hshape⟩
    · obtain ⟨f, hf⟩ := hT.back_nil
      rw [hnil, hf]
      exact ⟨f, rfl⟩
    · rw [List.concat_eq_append] at hshape
      have hback : T.back logits.shape = .ok dim := by rw [hshape, hT.back_append]
      rw [hback, Except.ok_bind]
      cases hempty : T.empty [dim] float32 with
      | error f => exact ⟨f, rfl⟩
      | ok processed =>
        obtain ⟨hprocessedShape, hprocessedDtype⟩ := hT.empty_eq _ _ _ hempty
        have hnonneg : 0 ≤ dim.toInt := by
          refine processed.dims dim ?_
          rw [hprocessedShape]
          exact List.mem_singleton_self dim
        obtain ⟨d, hdim⟩ := Int.eq_ofNat_of_zero_le hnonneg
        rw [Except.ok_bind]
        by_cases hsuits : logits.Suits d
        · -- The vector is written, but it is too long to be taken over.
          obtain ⟨out, hout, houtShape, houtDtype, -⟩ :=
            postprocess_of_suits hsuits hdim hprocessedShape hprocessedDtype
          rw [hout, Except.ok_bind]
          exact (ndarrayFromTvm_vector hT houtShape hdim houtDtype).2 (h logits d hlogits hsuits)
        · obtain ⟨f, hf⟩ := postprocess_throws hdim hprocessedShape
            fun hfloat henough => hsuits ⟨hfloat, ⟨dims, dim, hshape, hdim⟩, henough⟩
          rw [hf]
          exact ⟨f, rfl⟩

/-- The operator on a prompt. -/
theorem inferOp_prompt (T : TvmRuntime) (m : TvmEmbeddingModel) (getType : Value → String)
    {kvs : List (String × Value)} {prompt : String}
    (hlookup : kvs.lookup "prompt" = some (.string prompt)) :
    m.inferOp T getType (.map kvs) = (m.infer T (m.encode prompt) >>= ndarrayFromTvm T) >>=
      fun e => .ok (.ok (.map [("embedding", e.value)])) := by
  rw [inferOp, hlookup]
  dsimp only
  cases m.infer T (m.encode prompt) with
  | error f => rfl
  | ok embedding => rfl

theorem inferOp_of_suits (hT : T.Documented) (getType : Value → String)
    {kvs : List (String × Value)} {prompt : String}
    (hlookup : kvs.lookup "prompt" = some (.string prompt)) {logits : TvmNdarray} {d : ℕ}
    (hlogits : m.logits T (m.encode prompt) = .ok logits) (h : logits.Suits d) (hd : d < 2 ^ 31) :
    ∃ e : Ndarray, m.inferOp T getType (.map kvs) = .ok (.ok (.map [("embedding", e.value)])) ∧
      e.IsEmbedding d ∧ (e.floats d).map binary32.datum = (List.range d).map logits.number := by
  obtain ⟨e, he, hembedding, hfloats⟩ := infer_of_suits hT hlogits h hd
  rw [inferOp_prompt T m getType hlookup, he]
  exact ⟨e, rfl, hembedding, hfloats⟩

/-- `infer` reports a prompt that is missing or no string. For any other prompt, if `prefill` makes
numbers in half or in single precision of its tokens, as many as their last dimension says or more,
and that dimension is an `int`, it returns a vector of this dimension with the same numbers; and if
not, it throws. -/
theorem infer_reports (hT : T.Documented) (m : TvmEmbeddingModel) (getType : Value → String)
    (inputs : Value) :
    ((∀ kvs prompt, inputs = .map kvs → kvs.lookup "prompt" ≠ some (.string prompt)) →
      ∃ e, m.inferOp T getType inputs = .ok (.error e)) ∧
    ∀ kvs prompt, inputs = .map kvs → kvs.lookup "prompt" = some (.string prompt) →
      (∀ logits d, m.logits T (m.encode prompt) = .ok logits → logits.Suits d → d < 2 ^ 31 →
        ∃ e : Ndarray, m.inferOp T getType inputs = .ok (.ok (.map [("embedding", e.value)])) ∧
          e.IsEmbedding d ∧
          (e.floats d).map binary32.datum = (List.range d).map logits.number) ∧
      ((∀ logits d, m.logits T (m.encode prompt) = .ok logits → logits.Suits d → 2 ^ 31 ≤ d) →
        ∃ f, m.inferOp T getType inputs = .error f) := by
  constructor
  · intro hwrong
    cases inputs with
    | map kvs =>
      cases hlookup : kvs.lookup "prompt" with
      | none => exact ⟨_, by rw [inferOp, hlookup]⟩
      | some v =>
        cases v with
        | string prompt => exact absurd hlookup (hwrong kvs prompt rfl)
        | _ => exact ⟨_, by rw [inferOp, hlookup]⟩
    | _ => exact ⟨_, rfl⟩
  · rintro kvs prompt rfl hlookup
    constructor
    · intro logits d hlogits hsuits hd
      exact inferOp_of_suits hT getType hlookup hlogits hsuits hd
    · intro hnone
      obtain ⟨f, hf⟩ := infer_throws hT hnone
      rw [inferOp_prompt T m getType hlookup, hf]
      exact ⟨f, rfl⟩

end TvmEmbeddingModel

namespace TvmEmbeddingModel

/-- `tokenize` of a prompt that is no string. -/
theorem tokenizeOp_other (m : TvmEmbeddingModel) (getType : Value → String)
    {kvs : List (String × Value)} {v : Value} (hlookup : kvs.lookup "prompt" = some v)
    (hstring : ∀ prompt, v ≠ .string prompt) :
    m.tokenizeOp getType (.map kvs) = Value.mapAt kvs "prmopt" >>= fun v =>
      .ok (.error (.typeError "TVM Embedding Model: infer" "prompt" "string_t" (getType v))) := by
  rw [tokenizeOp, hlookup]
  cases v with
  | string prompt => exact absurd rfl (hstring prompt)
  | _ => rfl

/-- It throws, unless there is an input with the other key. -/
theorem tokenizeOp_throws_iff (m : TvmEmbeddingModel) (getType : Value → String) (inputs : Value) :
    (∃ f, m.tokenizeOp getType inputs = .error f) ↔ ∃ kvs v, inputs = .map kvs ∧
      kvs.lookup "prompt" = some v ∧ (∀ prompt, v ≠ .string prompt) ∧ kvs.lookup "prmopt" = none := by
  constructor
  · rintro ⟨f, hf⟩
    cases inputs with
    | map kvs =>
      cases hlookup : kvs.lookup "prompt" with
      | none =>
        rw [tokenizeOp, hlookup] at hf
        cases hf
      | some v =>
        by_cases hstring : ∃ prompt, v = .string prompt
        · obtain ⟨prompt, rfl⟩ := hstring
          rw [tokenizeOp, hlookup] at hf
          cases hf
        · have hother : ∀ prompt, v ≠ .string prompt := fun prompt h => hstring ⟨prompt, h⟩
          refine ⟨kvs, v, rfl, hlookup, hother, ?_⟩
          rw [tokenizeOp_other m getType hlookup hother, Value.mapAt] at hf
          cases hkey : kvs.lookup "prmopt" with
          | none => rfl
          | some w =>
            rw [hkey] at hf
            cases hf
    | _ => cases hf
  · rintro ⟨kvs, v, rfl, hlookup, hstring, hkey⟩
    rw [tokenizeOp_other m getType hlookup hstring, Value.mapAt, hkey]
    exact ⟨_, rfl⟩

end TvmEmbeddingModel

/-! ## A model of bytes -/

/-- Arrays of the host, whose memory is zero. -/
def hostRuntime : TvmRuntime where
  empty shape dtype :=
    if h : 1 ≤ dtype.lanes.toNat ∧ (shape.all fun dim => 0 ≤ dim.toInt) ∧
        (shape.map fun dim => dim.toInt.toNat).prod * dtype.itemsize < 2 ^ 63 then
      .ok ⟨shape, dtype,
        List.replicate ((shape.map fun dim => dim.toInt.toNat).prod * dtype.itemsize) 0, h.1,
        by simpa using h.2.1, List.length_replicate, List.length_replicate.trans_lt h.2.2⟩
    else .error (.exception "shape")
  copyToBytes a n :=
    if n = a.data.length then .ok a.data else .error (.exception "ArrayCopyToBytes: size mismatch")
  back shape :=
    match shape.getLast? with
    | some dim => .ok dim
    | none => .error (.exception "index out of range")

theorem hostRuntime_documented : hostRuntime.Documented where
  empty_ok _ _ hlanes hdims hsize := ⟨_, dif_pos ⟨hlanes, by simpa using hdims, hsize⟩⟩
  empty_eq shape dtype a h := by
    by_cases hvalid : 1 ≤ dtype.lanes.toNat ∧ (shape.all fun dim => 0 ≤ dim.toInt) ∧
        (shape.map fun dim => dim.toInt.toNat).prod * dtype.itemsize < 2 ^ 63
    · obtain rfl := Except.ok.inj ((dif_pos hvalid).symm.trans h)
      exact ⟨rfl, rfl⟩
    · cases (dif_neg hvalid).symm.trans h
  copyToBytes_ok _ := if_pos rfl
  copyToBytes_error _ _ h := ⟨_, if_neg h⟩
  back_append dims dim := by
    unfold hostRuntime
    dsimp only
    rw [List.getLast?_concat]
  back_nil := ⟨_, rfl⟩

/-- One number in half precision between one and two, with the given lower byte. -/
def halfArray (low : UInt8) : TvmNdarray where
  shape := [1, 1]
  dtype := ⟨2, 16, 1⟩
  data := [low, 0x3c]
  lanes := by decide
  dims dim hdim := by
    obtain rfl : dim = 1 := by simpa using hdim
    decide
  size := rfl
  memory := by
    show 2 < 2 ^ 63
    decide

theorem halfArray_suits (low : UInt8) : (halfArray low).Suits 1 :=
  ⟨⟨rfl, .inl rfl⟩, ⟨[1], 1, rfl, rfl⟩, le_rfl⟩

/-- A model that encodes a text by its first characters, and makes a number of the first of them. -/
def byteModel : TvmEmbeddingModel where
  encode text := 0 :: (text.toList.take 8).map fun c => Int32.ofNat c.toNat
  prefill input _ := .ok (halfArray (input.data.getD 4 0))

theorem byteModel_logits (text : String) : ∃ low,
    byteModel.logits hostRuntime (byteModel.encode text) = .ok (halfArray low) := by
  have hlen : (byteModel.encode text).length < 2 ^ 31 := by
    have htake : ((text.toList.take 8).map fun c => Int32.ofNat c.toNat).length ≤ 8 := by
      rw [List.length_map]
      exact List.length_take_le _ _
    show ((text.toList.take 8).map fun c => Int32.ofNat c.toNat).length + 1 < 2 ^ 31
    omega
  obtain ⟨input, mask, hlogits, -⟩ := byteModel.logits_eq hostRuntime_documented hlen
  exact ⟨_, hlogits⟩

namespace TvmEmbeddingModel

/-- A prompt with a vector of one dimension. -/
theorem infer_reports_byteModel : ∃ (low : UInt8) (e : Ndarray),
    byteModel.inferOp hostRuntime (fun _ => "") (.map [("prompt", .string "a")]) =
      .ok (.ok (.map [("embedding", e.value)])) ∧ e.IsEmbedding 1 ∧
      (e.floats 1).map binary32.datum = (List.range 1).map (halfArray low).number := by
  obtain ⟨low, hlogits⟩ := byteModel_logits "a"
  obtain ⟨e, he⟩ := ((infer_reports hostRuntime_documented byteModel (fun _ => "")
    (.map [("prompt", .string "a")])).2 _ "a" rfl rfl).1 _ 1 hlogits (halfArray_suits low) (by decide)
  exact ⟨low, e, he⟩

end TvmEmbeddingModel

end Ailoy
