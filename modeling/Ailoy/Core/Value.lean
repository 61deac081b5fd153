import Mathlib.Data.List.Basic

/-!
# Values and faults

The values of `core/include/value.hpp` that packets carry, and the ways in which an access to them
can fail. `array_t::at` and `map_t::at` raise an exception for an element that is not there.
`object_t::as` is a `dynamic_pointer_cast`, so a cast to another type yields a null pointer, and the
code dereferences it without a check.
-/

namespace Ailoy

/-- How a run of the code ends other than by returning. -/
inductive Fault
  /-- A C++ exception with its message. -/
  | exception (what : String)
  /-- A null pointer is dereferenced. -/
  | nullDereference
  /-- A read outside the bytes of a buffer. -/
  | outOfBounds
  deriving DecidableEq

/-- `DLDataType` of DLPack. -/
structure DLDataType where
  code : UInt8
  bits : UInt8
  lanes : UInt16
  deriving DecidableEq

/-- `value_t` with its subclasses. A `std::string` is a `String` with one character for each of its
bytes, a float is its bit pattern, and a map is its list of entries. -/
inductive Value
  | null
  | bool (v : Bool)
  | uint (v : UInt64)
  | int (v : Int64)
  | float (bits : UInt32)
  | double (bits : UInt64)
  | string (v : String)
  | bytes (v : List UInt8)
  | array (vs : List Value)
  | map (kvs : List (String × Value))
  | ndarray (shape : List UInt64) (dtype : DLDataType) (data : List UInt8)

namespace Value

/-- The integer that a `uint_t` or an `int_t` holds. -/
def integer? : Value → Option Int
  | .uint n => some n.toNat
  | .int n => some n.toInt
  | _ => none

/-- `*v->as<string_t>()`. -/
def asString : Value → Except Fault String
  | .string s => .ok s
  | _ => .error .nullDereference

/-- `*v->as<bool_t>()`. -/
def asBool : Value → Except Fault Bool
  | .bool b => .ok b
  | _ => .error .nullDereference

/-- `*v->as<uint_t>()`. -/
def asUint : Value → Except Fault UInt64
  | .uint n => .ok n
  | _ => .error .nullDereference

/-- `array_t::at`. -/
def arrayAt (vs : List Value) (idx : ℕ) : Except Fault Value :=
  match vs[idx]? with
  | some v => .ok v
  | none => .error (.exception ("out of range: " ++ toString idx))

/-- `map_t::at`. -/
def mapAt (kvs : List (String × Value)) (key : String) : Except Fault Value :=
  match kvs.lookup key with
  | some v => .ok v
  | none => .error (.exception ("key not exists: " ++ key))

end Value

end Ailoy
