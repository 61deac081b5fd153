import Ailoy.Bindings.HostValues
import Ailoy.Core.Ndarray
import Ailoy.Lib.StridedView

/-!
# Arrays of the hosts

The conversions between the arrays of a host and `ndarray_t`: those of numpy in
`bindings/python/csrc/py_value_converters.hpp`, and those of JavaScript, the typed arrays in
`bindings/js-node/csrc/js_value_converters.hpp` and the `NDArray` in `js_ndarray.hpp`. All of them
copy memory, from where an array of numpy starts, or all that is behind an array of JavaScript. An
array of numpy has strides, a typed array is a part of an `ArrayBuffer`, and neither is looked at.
-/

namespace Ailoy.HostArrays

open StridedView
open HostValues (int64Value doubleOfInt)

/-! ## Element types -/

/-- The types of elements that the converters know. -/
inductive ElementType
  | int8 | int16 | int32 | int64 | uint8 | uint16 | uint32 | uint64 | float32 | float64
  deriving DecidableEq

namespace ElementType

/-- In the order in which the converters compare them. -/
def all : List ElementType :=
  [.int8, .int16, .int32, .int64, .uint8, .uint16, .uint32, .uint64, .float32, .float64]

/-- `kDLInt`, `kDLUInt`, or `kDLFloat`. -/
def code : ElementType → UInt8
  | .int8 | .int16 | .int32 | .int64 => 0
  | .uint8 | .uint16 | .uint32 | .uint64 => 1
  | .float32 | .float64 => 2

/-- The size of an element in bytes. -/
def bytes : ElementType → ℕ
  | .int8 | .uint8 => 1
  | .int16 | .uint16 => 2
  | .int32 | .uint32 | .float32 => 4
  | .int64 | .uint64 | .float64 => 8

def dtype (t : ElementType) : DLDataType := ⟨t.code, UInt8.ofNat (t.bytes * 8), 1⟩

/-- `py::format_descriptor`. -/
def format : ElementType → String
  | .int8 => "b"
  | .int16 => "h"
  | .int32 => "i"
  | .int64 => "q"
  | .uint8 => "B"
  | .uint16 => "H"
  | .uint32 => "I"
  | .uint64 => "Q"
  | .float32 => "f"
  | .float64 => "d"

/-- The `dtype` of an `NDArray`. -/
def name : ElementType → String
  | .int8 => "int8"
  | .int16 => "int16"
  | .int32 => "int32"
  | .int64 => "int64"
  | .uint8 => "uint8"
  | .uint16 => "uint16"
  | .uint32 => "uint32"
  | .uint64 => "uint64"
  | .float32 => "float32"
  | .float64 => "float64"

def ofFormat (format : String) : Option ElementType := all.find? fun t => format = t.format

def ofName (dtype : String) : Option ElementType := all.find? fun t => dtype = t.name

/-- The `switch` over the code and the bits of a `dtype`. -/
def ofDtype (unsupported : String) (dtype : DLDataType) : Except Fault ElementType :=
  match dtype.code.toNat, dtype.bits.toNat with
  | 0, 8 => .ok .int8
  | 0, 16 => .ok .int16
  | 0, 32 => .ok .int32
  | 0, 64 => .ok .int64
  | 0, _ => .error (.exception (unsupported ++ " int bits"))
  | 1, 8 => .ok .uint8
  | 1, 16 => .ok .uint16
  | 1, 32 => .ok .uint32
  | 1, 64 => .ok .uint64
  | 1, _ => .error (.exception (unsupported ++ " uint bits"))
  | 2, 32 => .ok .float32
  | 2, 64 => .ok .float64
  | 2, _ => .error (.exception (unsupported ++ " float bits"))
  | _, _ => .error (.exception "Unsupported dtype code")

end ElementType

/-- What an array is to its readers: the shape, the type of the elements, and their bytes in row-major
order. -/
structure Contents where
  shape : List ℕ
  type : Option ElementType
  elements : List UInt8
  deriving DecidableEq

/-! ## Numpy -/

/-- `py::buffer_info`, with the memory that its pointer leads into. -/
structure BufferInfo where
  memory : List UInt8
  ptr : ℕ
  itemsize : ℕ
  format : String
  /-- The shape and the strides. -/
  dims : StridedView

/-- `std::memcpy` from a place of a memory. -/
def memcpy (memory : List UInt8) (src n : ℕ) : Except Fault (List UInt8) :=
  if n = 0 ∨ src + n ≤ memory.length then .ok (units memory src n) else .error .outOfBounds

namespace BufferInfo

variable (info : BufferInfo)

def shape : List ℕ := info.dims.map Prod.fst

/-- The number of elements. -/
def size : ℕ := count info.dims

def contents : Contents where
  shape := info.shape
  type := ElementType.ofFormat info.format
  elements := gather info.itemsize info.memory info.dims info.ptr

/-- `load` of a `py::array`. -/
def load : Except Fault Ndarray :=
  match ElementType.ofFormat info.format with
  | some t => do
    -- the strides are not read
    let data ← memcpy info.memory info.ptr (info.size * info.itemsize)
    return { shape := info.shape.map UInt64.ofNat, dtype := t.dtype, data }
  | none => .error (.exception "Unsupported numpy dtype for ndarray_t")

/-- The bytes from the start of the array on are its elements in row-major order. -/
def IsPacked : Prop :=
  info.ptr + info.size * info.itemsize ≤ info.memory.length ∧
    units info.memory info.ptr (info.size * info.itemsize) = info.contents.elements

end BufferInfo

/-- An array of numpy: its elements are in the memory, and they are of the size that their type says.
Neither a dimension nor the number of bytes exceeds an `npy_intp`. -/
structure NumpyArray where
  info : BufferInfo
  inMemory : InBounds info.itemsize info.memory.length info.dims info.ptr
  itemsize_eq : ∀ t, ElementType.ofFormat info.format = some t → info.itemsize = t.bytes
  dim_lt : ∀ n ∈ info.shape, n < 2 ^ 63
  size_lt : info.size * info.itemsize < 2 ^ 63

namespace NumpyArray

variable (a : NumpyArray)

/-- The converters know the type of the elements. -/
def IsSupported : Prop := ∃ t, ElementType.ofFormat a.info.format = some t

/-- The array of the same layout in a memory of the same size. -/
def withMemory (memory : List UInt8) (h : memory.length = a.info.memory.length) : NumpyArray where
  info := { a.info with memory }
  inMemory := h ▸ a.inMemory
  itemsize_eq := a.itemsize_eq
  dim_lt := a.dim_lt
  size_lt := a.size_lt

end NumpyArray

/-- The loop over the dimensions, the last of them first: their strides, and the next stride. -/
def strides (stride : UInt64) : List UInt64 → List UInt64 × UInt64
  | [] => ([], stride)
  | dim :: shape =>
    let inner := strides stride shape
    (inner.2 :: inner.1, inner.2 * dim)

/-- `cast` of an `ndarray_t`: the array of which `py::array` makes a copy. -/
def castNumpy (a : Ndarray) : Except Fault BufferInfo := do
  let t ← ElementType.ofDtype "Unsupported" a.dtype
  let strides := (strides (.ofNat (a.dtype.bits.toNat / 8)) a.shape).1
  let dims : StridedView := (a.shape.map UInt64.toNat).zip (strides.map fun s => s.toInt64.toInt)
  if ∃ dim ∈ a.shape, 2 ^ 63 ≤ dim.toNat then
    .error (.exception "negative dimensions are not allowed")
  else if InBounds a.itemsize a.data.length dims (0 : ℕ) then
    return { memory := a.data, ptr := 0, itemsize := a.itemsize, format := t.format, dims }
  else .error .outOfBounds

/-! ## Typed arrays -/

/-- `napi_typedarray_type`. -/
inductive TypedArrayType
  | element (t : ElementType)
  | uint8Clamped
  deriving DecidableEq

namespace TypedArrayType

def bytes : TypedArrayType → ℕ
  | .element t => t.bytes
  | .uint8Clamped => 1

/-- The type of the elements, if the converters know it. -/
def element? : TypedArrayType → Option ElementType
  | .element t => some t
  | .uint8Clamped => none

end TypedArrayType

/-- An `ArrayBuffer`, whose length is a safe integer. -/
structure ArrayBuffer where
  data : List UInt8
  length_lt : data.length < 2 ^ 53

/-- `ArrayBuffer::New` with a copy of bytes. -/
def ArrayBuffer.new (data : List UInt8) : Except Fault ArrayBuffer :=
  if h : data.length < 2 ^ 53 then .ok ⟨data, h⟩
  else .error (.exception "Array buffer allocation failed")

/-- A typed array, which is a part of an `ArrayBuffer`. -/
structure TypedArray where
  buffer : ArrayBuffer
  type : TypedArrayType
  byteOffset : ℕ
  elementLength : ℕ
  inBuffer : byteOffset + elementLength * type.bytes ≤ buffer.data.length

namespace TypedArray

/-- `TypedArrayOf::New` at the start of a buffer. -/
def new (t : ElementType) (elementLength : ℕ) (buffer : ArrayBuffer) : Except Fault TypedArray :=
  if h : 0 + elementLength * t.bytes ≤ buffer.data.length then
    .ok ⟨buffer, .element t, 0, elementLength, h⟩
  else .error (.exception "Invalid typed array length")

variable (a : TypedArray)

def byteLength : ℕ := a.elementLength * a.type.bytes

def elements : List UInt8 := units a.buffer.data a.byteOffset a.byteLength

def contents : Contents where
  shape := [a.elementLength]
  type := a.type.element?
  elements := a.elements

/-- `from_napi_value` of a typed array. -/
def load : Except Fault Ndarray :=
  match a.type with
  -- the whole buffer, from wherever the elements start
  | .element t => .ok
      { shape := [UInt64.ofNat a.elementLength], dtype := t.dtype, data := a.buffer.data }
  | .uint8Clamped => .error (.exception "Unsupported TypedArray type for ndarray_t conversion")

end TypedArray

/-! ## `NDArray` -/

/-- The `size_t` of a `Number` of a shape: its `Int64Value`. -/
def sizeOfNumber (bits : UInt64) : UInt64 := (int64Value bits).toUInt64

/-- `Number::New` of a `size_t`. -/
def numberOfSize (n : UInt64) : UInt64 := doubleOfInt n.toNat

/-- `js_ndarray_t`. -/
structure JsNdarray where
  shape : List UInt64
  dtype : String
  data : TypedArray

/-- `check_dtype_match`. -/
def checkDtypeMatch (dtype : String) (type : TypedArrayType) : Bool :=
  match ElementType.ofName dtype with
  | some t => type = .element t
  | none => false

/-- `dtype_bytes`. -/
def dtypeBytes (dtype : String) : ℕ :=
  match ElementType.ofName dtype with
  | some t => t.bytes
  | none => 0

/-- `dtype_code`. -/
def dtypeCode (dtype : String) : Except Fault UInt8 :=
  match ElementType.ofName dtype with
  | some t => .ok t.code
  | none => .error (.exception ("unknown dtype: " ++ dtype))

/-- The integer that a `size_t` becomes as a `double`. -/
def doubleOfSize (n : UInt64) : ℕ :=
  match BinaryFloat.binary64.datum (numberOfSize n).toNat with
  | .finite _ q => q.floor.toNat
  | .infinite _ | .nan => 0

section Construct

variable (wild : ℕ → UInt64)

/-- The conversion of a `double` that stands for an integer to a `size_t`. The language leaves open
what it yields for one that is too large. -/
def sizeOfDouble (d : ℕ) : UInt64 := if d < 2 ^ 64 then .ofNat d else wild d

/-- The `std::accumulate` over the shape. It starts with a `double`, so it keeps the product of
`size_t`s in one. -/
def accumulate (shape : List UInt64) : ℕ :=
  shape.foldl (fun acc dim => doubleOfSize (sizeOfDouble wild acc * dim)) 1

/-- `nbytes`. A `double` is multiplied by a power of two without a rounding. -/
def nbytes (shape : List UInt64) (dtype : String) : UInt64 :=
  sizeOfDouble wild (accumulate wild shape * dtypeBytes dtype)

/-- The constructor of `js_ndarray_t`, with the `Number`s of `shape`. -/
def construct (shape : List UInt64) (dtype : String) (data : TypedArray) : Except Fault JsNdarray :=
  -- a negative `Number` becomes a large size
  let sizes := shape.map sizeOfNumber
  if ¬ checkDtypeMatch dtype data.type then
    .error (.exception "Data type does not match to provided dtype")
  else if dtypeBytes dtype = 0 then
    .error (.exception ("Unsupported dtype: " ++ dtype))
  else if data.byteLength ≠ (nbytes wild sizes dtype).toNat then
    .error (.exception "Data buffer size doesn't match shape and dtype")
  else .ok { shape := sizes, dtype, data }

namespace JsNdarray

variable (a : JsNdarray)

def contents : Contents where
  shape := a.shape.map UInt64.toNat
  type := ElementType.ofName a.dtype
  elements := a.data.elements

/-- `to_ailoy_ndarray_t`. -/
def load : Except Fault Ndarray := do
  let code ← dtypeCode a.dtype
  return {
    shape := a.shape
    dtype := ⟨code, UInt8.ofNat (dtypeBytes a.dtype * 8), 1⟩
    data := a.data.buffer.data }

end JsNdarray

/-- `to_napi_value` of an `ndarray_t`. -/
def castJs (a : Ndarray) : Except Fault JsNdarray := do
  let numElements := a.shape.foldl (· * ·) 1
  let ab ← ArrayBuffer.new a.data
  let t ← ElementType.ofDtype "unsupported" a.dtype
  let data ← TypedArray.new t numElements.toNat ab
  construct wild (a.shape.map numberOfSize) t.name data

end Construct

/-! ## What it is for an array to cross unchanged -/

/-- The `ndarray_t` has the shape and the type of an array, and its data is the elements of it. -/
structure Holds (a : Ndarray) (source : Contents) (t : ElementType) : Prop where
  type_eq : source.type = some t
  dtype_eq : a.dtype = t.dtype
  shape_eq : a.shape.map UInt64.toNat = source.shape
  length_eq : a.data.length = source.shape.prod * t.bytes
  data_eq : a.data = source.elements

/-- An array is converted to an `ndarray_t` that holds it, and that is converted back to an array of
the same contents. -/
def Crosses {α : Type} (load : Except Fault Ndarray) (cast : Ndarray → Except Fault α)
    (contents : α → Contents) (source : Contents) : Prop :=
  ∃ a t b, load = .ok a ∧ Holds a source t ∧ cast a = .ok b ∧ contents b = source

/-- An array of numpy crosses unchanged. -/
def NumpyArray.Crosses (a : NumpyArray) : Prop :=
  HostArrays.Crosses a.info.load castNumpy BufferInfo.contents a.info.contents

/-- A typed array crosses unchanged. What comes back is an `NDArray`. -/
def TypedArray.Crosses (wild : ℕ → UInt64) (a : TypedArray) : Prop :=
  HostArrays.Crosses a.load (castJs wild) JsNdarray.contents a.contents

/-- An `NDArray` crosses unchanged. -/
def JsNdarray.Crosses (wild : ℕ → UInt64) (a : JsNdarray) : Prop :=
  HostArrays.Crosses a.load (castJs wild) JsNdarray.contents a.contents

end Ailoy.HostArrays
