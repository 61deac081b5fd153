import Ailoy.Core.ValueEncoding
import Ailoy.Vm.SplitTextOps

/-!
# Values of the hosts

The converters between the values of a host and `value_t`: `type_caster<value_t>` of
`bindings/python/csrc/py_value_converters.hpp`, and `from_napi_value` and `to_napi_value` of
`bindings/js-node/csrc/js_value_converters.hpp`. Both go through lists and dictionaries in the same
way (`Converters.load` and `Converters.cast`), and differ in what they do with the other values and
with the keys. The arrays of numpy and of JavaScript are in `HostArrays`.
-/

namespace Ailoy.HostValues

open SplitText (bytesOf ofBytes)

/-! ## Strings -/

/-- A code point of a string of a host: a character, or one half of a surrogate pair that stands
alone. -/
inductive CodePoint
  | char (c : Char)
  | surrogate (unit : UInt16)
  deriving DecidableEq

abbrev HostString := List CodePoint

/-- The bytes of characters in UTF-8. -/
def utf8 (cs : List Char) : List UInt8 := cs.flatMap String.utf8EncodeChar

/-- The characters that bytes stand for, if they are valid UTF-8. -/
def utf8Decode (bytes : List UInt8) : Option (List Char) :=
  bytes.toByteArray.utf8Decode?.map Array.toList

/-- The characters of a string that has no lone surrogates. -/
def characters : HostString → Option (List Char)
  | [] => some []
  | .char c :: s => (characters s).map (c :: ·)
  | .surrogate _ :: _ => none

/-! ## The converters -/

/-- What a converter raises. -/
inductive HostError
  /-- `cast_error` of pybind11: the value does not fit the type that it is cast to. -/
  | cast
  /-- The bytes of a string are not UTF-8. -/
  | decode
  /-- The value is an array, which is left to `HostArrays`, or not one of a scalar. -/
  | other

/-- A value of a host with the scalars `α`: a scalar, a list, or a dictionary. -/
inductive Host (α : Type)
  | scalar (a : α)
  | list (xs : List (Host α))
  | dict (kvs : List (HostString × Host α))

/-- What a host does with its scalars and with the keys of its dictionaries. -/
structure Converters (α : Type) where
  loadScalar : α → Except HostError Value
  loadKey : HostString → Except HostError String
  castScalar : Value → Except HostError α
  castKey : String → Except HostError HostString
  /-- Setting an entry makes one of this key. -/
  isOwnKey : HostString → Bool

/-- An assignment to an element of a map. -/
def assign {κ ν : Type} [DecidableEq κ] (key : κ) (v : ν) : List (κ × ν) → List (κ × ν)
  | [] => [(key, v)]
  | (k, w) :: m => if k = key then (k, v) :: m else (k, w) :: assign key v m

namespace Converters

variable {α : Type} (c : Converters α)

mutual

/-- The conversion of a value of the host to a `value_t`: `load`, and `from_napi_value`. -/
def load : Host α → Except HostError Value
  | .scalar a => c.loadScalar a
  | .list xs => do
    let vs ← loadList xs
    return .array vs
  | .dict kvs => do
    let entries ← loadEntries [] kvs
    return .map entries

/-- The loop over the elements of a list. -/
def loadList : List (Host α) → Except HostError (List Value)
  | [] => .ok []
  | x :: xs => do
    let v ← load x
    let vs ← loadList xs
    return v :: vs

/-- The loop over the entries of a dictionary. -/
def loadEntries (map : List (String × Value)) :
    List (HostString × Host α) → Except HostError (List (String × Value))
  | [] => .ok map
  | (k, x) :: kvs => do
    let v ← load x
    let key ← c.loadKey k
    loadEntries (assign key v map) kvs

end

/-- An entry of a dictionary is set. -/
def setEntry (key : HostString) (x : Host α) (dict : List (HostString × Host α)) :
    List (HostString × Host α) :=
  if c.isOwnKey key then assign key x dict else dict

mutual

/-- The conversion of a `value_t` to a value of the host: `cast`, and `to_napi_value`. -/
def cast : Value → Except HostError (Host α)
  | .array vs => do
    let xs ← castArray vs
    return .list xs
  | .map entries => do
    let kvs ← castEntries [] entries
    return .dict kvs
  | v => do
    let a ← c.castScalar v
    return .scalar a

/-- The loop over the elements of an array. -/
def castArray : List Value → Except HostError (List (Host α))
  | [] => .ok []
  | v :: vs => do
    let x ← cast v
    let xs ← castArray vs
    return x :: xs

/-- The loop over the entries of a map. -/
def castEntries (dict : List (HostString × Host α)) :
    List (String × Value) → Except HostError (List (HostString × Host α))
  | [] => .ok dict
  | (key, v) :: entries => do
    let x ← cast v
    let k ← c.castKey key
    castEntries (c.setEntry k x dict) entries

end

end Converters

/-- The integer is one of an `int64_t`. -/
def FitsInt64 (n : ℤ) : Prop := -2 ^ 63 ≤ n ∧ n < 2 ^ 63

instance (n : ℤ) : Decidable (FitsInt64 n) := inferInstanceAs (Decidable (_ ∧ _))

/-! ## Python -/

/-- A scalar of Python: `None`, a `bool`, an `int`, a `float`, a `str`, or `bytes`. -/
inductive PyScalar
  | none
  | bool (b : Bool)
  | int (n : ℤ)
  | float (bits : UInt64)
  | str (s : HostString)
  | bytes (bs : List UInt8)

/-- The cast of a `str` to a `std::string`, which has no lone surrogates. -/
def pyLoadString (s : HostString) : Except HostError String :=
  match characters s with
  | some cs => .ok (ofBytes (utf8 cs))
  | none => .error .cast

/-- The `py::str` of a `std::string`. -/
def pyCastString (s : String) : Except HostError HostString :=
  match utf8Decode (bytesOf s) with
  | some cs => .ok (cs.map .char)
  | none => .error .decode

/-- `load` on a scalar. -/
def pyLoadScalar : PyScalar → Except HostError Value
  | .none => .ok .null
  | .bool b => .ok (.bool b)
  | .int n => if FitsInt64 n then .ok (.int (Int64.ofInt n)) else .error .cast
  | .float bits => .ok (.double bits)
  | .str s => (pyLoadString s).map .string
  | .bytes bs => .ok (.bytes bs)

/-- `cast` on a scalar. -/
def pyCastScalar : Value → Except HostError PyScalar
  | .null => .ok .none
  | .bool b => .ok (.bool b)
  | .int n => .ok (.int n.toInt)
  | .uint n => .ok (.int n.toNat)
  | .float bits => .ok (.float (floatToDouble bits))
  | .double bits => .ok (.float bits)
  | .string s => (pyCastString s).map .str
  | .bytes bs => .ok (.bytes bs)
  | .array _ | .map _ | .ndarray _ _ _ => .error .other

/-- `type_caster<value_t>`. -/
def python : Converters PyScalar where
  loadScalar := pyLoadScalar
  loadKey := pyLoadString
  castScalar := pyCastScalar
  castKey := pyCastString
  isOwnKey _ := true

/-! ## JavaScript -/

/-- A scalar of JavaScript: `null`, a boolean, a `Number`, a `BigInt`, a string, or an `ArrayBuffer`.
-/
inductive JsScalar
  | null
  | boolean (b : Bool)
  | number (bits : UInt64)
  | bigint (n : ℤ)
  | string (s : HostString)
  | arrayBuffer (bs : List UInt8)

/-- `std::trunc(val) == val`, which is true of an infinity as well. -/
def isTruncated (bits : UInt64) : Bool :=
  match BinaryFloat.binary64.datum bits.toNat with
  | .finite _ q => q.isInt
  | .infinite _ => true
  | .nan => false

/-- The number that a sign and a magnitude stand for. -/
def signed (negative : Bool) (q : ℚ) : ℚ := if negative then -q else q

/-- The nearest number that an `int64_t` has. -/
def clamp (n : ℤ) : Int64 := Int64.ofInt (max (-2 ^ 63) (min n (2 ^ 63 - 1)))

/-- The integer part, towards zero. -/
def truncate (negative : Bool) (q : ℚ) : ℤ := if negative then -q.floor else q.floor

/-- `Number::Int64Value`: the `int64_t` nearest to the integer part, and zero for a number that is not
finite. -/
def int64Value (bits : UInt64) : Int64 :=
  match BinaryFloat.binary64.datum bits.toNat with
  | .finite negative q => clamp (truncate negative q)
  | .infinite _ | .nan => 0

/-- The `double` that an integer is converted to. -/
def doubleOfInt (n : ℤ) : UInt64 :=
  .ofNat (BinaryFloat.binary64.round (decide (n < 0)) n.natAbs 0)

/-- The character that `Utf8Value` writes, which is the replacement character where a surrogate stands
alone. -/
def CodePoint.replaced : CodePoint → Char
  | .char c => c
  | .surrogate _ => '\uFFFD'

/-- `String::Utf8Value`. -/
def utf8Value (s : HostString) : String := ofBytes (utf8 (s.map CodePoint.replaced))

/-- `ToString` of a `BigInt`. -/
def bigintDigits (n : ℤ) : HostString := (toString n).toList.map .char

/-- `from_napi_value` on a scalar. -/
def jsLoadScalar : JsScalar → Except HostError Value
  | .null => .ok .null
  | .boolean b => .ok (.bool b)
  | .number bits => if isTruncated bits then .ok (.int (int64Value bits)) else .ok (.double bits)
  | .bigint n =>
    if FitsInt64 n then .ok (.int (Int64.ofInt n)) else .ok (.string (utf8Value (bigintDigits n)))
  | .string s => .ok (.string (utf8Value s))
  | .arrayBuffer bs => .ok (.bytes bs)

section JavaScript

variable (replace : List UInt8 → HostString)

/-- `String::New`, which replaces what is not UTF-8. -/
def stringNew (bytes : List UInt8) : HostString :=
  match utf8Decode bytes with
  | some cs => cs.map .char
  | none => replace bytes

/-- `to_napi_value` on a scalar. -/
def jsCastScalar : Value → Except HostError JsScalar
  | .null => .ok .null
  | .string s => .ok (.string (stringNew replace (bytesOf s)))
  | .bool b => .ok (.boolean b)
  | .int n => .ok (.number (doubleOfInt n.toInt))
  | .uint n => .ok (.number (doubleOfInt n.toNat))
  | .float bits => .ok (.number (floatToDouble bits))
  | .double bits => .ok (.number bits)
  | .bytes bs => .ok (.string (stringNew replace bs))
  | .array _ | .map _ | .ndarray _ _ _ => .error .other

/-- The name of the accessor of an object for its prototype. -/
def protoKey : HostString := "__proto__".toList.map .char

/-- `from_napi_value` and `to_napi_value`. Setting the property `__proto__` of an object sets its
prototype. -/
def js : Converters JsScalar where
  loadScalar := jsLoadScalar
  loadKey s := .ok (utf8Value s)
  castScalar := jsCastScalar replace
  castKey s := .ok (stringNew replace (bytesOf s))
  isOwnKey key := key ≠ protoKey

end JavaScript

end Ailoy.HostValues
