import Ailoy.Core.ValueCodec
import Ailoy.Lib.BinaryFloat
import Ailoy.Lib.OrderedMap
import Mathlib.Data.String.Basic

/-!
# Encoding values

`value_t::encode` of `core/src/value.cpp` for CBOR: `to_nlohmann_json` of each type, and the
library's `nlohmann::json::to_cbor`, which is a parameter here like its reader. A document that has
gone through the library is `Json.readBack` of what was written: CBOR has one encoding for a
non-negative integer, which is read as an unsigned one, and one for all NaNs.
-/

namespace Ailoy

/-! ## Writes to a buffer -/

/-- The `n` bytes of a number, the least significant first. Higher bytes are dropped. -/
def leBytes : ℕ → ℕ → List UInt8
  | 0, _ => []
  | n + 1, k => UInt8.ofNat k :: leBytes n (k / 256)

@[simp] theorem leBytes_length (n k : ℕ) : (leBytes n k).length = n := by
  induction n generalizing k with
  | zero => rfl
  | succ n ih => rw [leBytes, List.length_cons, ih]

/-- The bytes of a number stand for what fits of it. -/
theorem leNat_leBytes (n k : ℕ) : leNat (leBytes n k) = k % 256 ^ n := by
  induction n generalizing k with
  | zero => simp [leBytes, leNat, Nat.mod_one]
  | succ n ih =>
    have hbyte : (UInt8.ofNat k).toNat = k % 256 := by simp
    rw [leBytes, leNat, hbyte, ih, Nat.pow_succ', Nat.mod_mul]

/-- The bytes of a number bound it. -/
theorem leNat_lt (bytes : List UInt8) : leNat bytes < 256 ^ bytes.length := by
  induction bytes with
  | nil => exact Nat.one_pos
  | cons b bytes ih =>
    have hb := b.toNat_lt
    rw [leNat, List.length_cons, Nat.pow_succ]
    omega

/-- What is read behind the bytes of a number is what fits of it. -/
theorem readUint_leBytes_mod (n k : ℕ) (rest : List UInt8) :
    readUint n (leBytes n k ++ rest) = .ok (k % 256 ^ n, rest) := by
  rw [readUint_eq_ok_iff]
  exact ⟨leBytes n k, leBytes_length n k, rfl, (leNat_leBytes n k).symm⟩

/-- A number that fits is read back behind its bytes. -/
theorem readUint_leBytes {n k : ℕ} (h : k < 256 ^ n) (rest : List UInt8) :
    readUint n (leBytes n k ++ rest) = .ok (k, rest) := by
  rw [readUint_leBytes_mod, Nat.mod_eq_of_lt h]

/-- As many bytes as there are before `rest` are read back. -/
theorem readBytes_append (bytes rest : List UInt8) :
    readBytes bytes.length (bytes ++ rest) = .ok (bytes, rest) :=
  readBytes_eq_ok_iff.mpr ⟨rfl, rfl⟩

/-! ## Values as JSON -/

/-- `static_cast<double>` of a `float`. -/
def floatToDouble (bits : UInt32) : UInt64 := UInt64.ofNat (BinaryFloat.widen bits.toNat)

/-- `ndarray_t::to_nlohmann_json`: the rank and the dimensions in four bytes each, the four bytes of
`DLDataType`, the size of the data in eight bytes, and the data. -/
def ndarrayToNlohmannJson (shape : List UInt64) (dtype : DLDataType) (data : List UInt8) : Json :=
  .binary
    (leBytes 4 shape.length ++ (shape.flatMap (fun v => leBytes 4 v.toNat) ++
      (leBytes 1 dtype.code.toNat ++ (leBytes 1 dtype.bits.toNat ++
        (leBytes 2 dtype.lanes.toNat ++ (leBytes 8 data.length ++ data))))))
    (some 1801)

namespace Value

mutual

/-- `to_nlohmann_json`. An object of the library is a `std::map`. -/
def toNlohmannJson : Value → Json
  | .null => .null
  | .bool v => .boolean v
  | .uint v => .numberUnsigned v
  | .int v => .numberInteger v
  | .float bits => .numberFloat (floatToDouble bits)
  | .double bits => .numberFloat bits
  | .string v => .string v
  | .bytes v => .binary v none
  | .array vs => .array (toNlohmannArray vs)
  | .map kvs => .object (OrderedMap.ofEntries (toNlohmannEntries kvs))
  | .ndarray shape dtype data => ndarrayToNlohmannJson shape dtype data

/-- The elements of an array, in order. -/
def toNlohmannArray : List Value → List Json
  | [] => []
  | v :: vs => v.toNlohmannJson :: toNlohmannArray vs

/-- The entries that `map_t::to_nlohmann_json` inserts, in order. -/
def toNlohmannEntries : List (String × Value) → List (String × Json)
  | [] => []
  | (key, v) :: kvs => (key, v.toNlohmannJson) :: toNlohmannEntries kvs

end

/-- `value_t::encode` with the CBOR method, over the library's writer. -/
def encode (toCbor : Json → List UInt8) (v : Value) : List UInt8 := toCbor v.toNlohmannJson

theorem toNlohmannArray_eq (vs : List Value) : toNlohmannArray vs = vs.map toNlohmannJson := by
  induction vs with
  | nil => rfl
  | cons v vs ih => rw [toNlohmannArray, ih, List.map_cons]

theorem toNlohmannEntries_eq (kvs : List (String × Value)) :
    toNlohmannEntries kvs = kvs.map fun kv => (kv.1, kv.2.toNlohmannJson) := by
  induction kvs with
  | nil => rfl
  | cons kv kvs ih => rw [toNlohmannEntries, ih, List.map_cons]

end Value

/-! ## Documents that went through the library -/

/-- The quiet NaN that the reader makes. -/
def quietNan : UInt64 := 0x7FF8000000000000

/-- The bit pattern of a double after it was written and read. -/
def readBackFloat (bits : UInt64) : UInt64 :=
  if BinaryFloat.binary64.isNan bits.toNat then quietNan else bits

namespace Json

mutual

/-- A document after it was written and read. -/
def readBack : Json → Json
  | .numberInteger n => if 0 ≤ n then .numberUnsigned n.toUInt64 else .numberInteger n
  | .numberFloat bits => .numberFloat (readBackFloat bits)
  | .array js => .array (readBackArray js)
  | .object kvs => .object (readBackEntries kvs)
  | .null => .null
  | .boolean v => .boolean v
  | .numberUnsigned v => .numberUnsigned v
  | .string v => .string v
  | .binary data subtype => .binary data subtype

/-- The elements of an array after they were written and read. -/
def readBackArray : List Json → List Json
  | [] => []
  | j :: js => j.readBack :: readBackArray js

/-- The entries of an object after they were written and read. -/
def readBackEntries : List (String × Json) → List (String × Json)
  | [] => []
  | (key, j) :: kvs => (key, j.readBack) :: readBackEntries kvs

end

theorem readBackArray_eq (js : List Json) : readBackArray js = js.map readBack := by
  induction js with
  | nil => rfl
  | cons j js ih => rw [readBackArray, ih, List.map_cons]

theorem readBackEntries_eq (kvs : List (String × Json)) :
    readBackEntries kvs = kvs.map fun kv => (kv.1, kv.2.readBack) := by
  induction kvs with
  | nil => rfl
  | cons kv kvs ih => rw [readBackEntries, ih, List.map_cons]

/-- The library's reader inverts its writer on a document. -/
def Inverts (toCbor : Json → List UInt8) (fromCbor : List UInt8 → Except Fault Json) (j : Json) :
    Prop := fromCbor (toCbor j) = .ok j.readBack

end Json

end Ailoy
