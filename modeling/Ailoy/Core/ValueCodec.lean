import Ailoy.Core.Value
import Ailoy.Lib.Except
import Mathlib.Algebra.Group.Nat.Defs

/-!
# Decoding values

`decode` of `core/src/value.cpp` for CBOR: the library's `nlohmann::json::from_cbor`, which is a
parameter here, and `from_nlohmann_json`, which turns its result into a `value_t`. The reads of
`ndarray_t::from_nlohmann_json` follow lengths that the bytes themselves carry and are not checked
against the size of the buffer, so each read is a function that can fault.
-/

namespace Ailoy

/-! ## Reads from a buffer -/

/-- The number that bytes stand for, the least significant first. -/
def leNat : List UInt8 → ℕ
  | [] => 0
  | b :: bs => b.toNat + 256 * leNat bs

/-- A read of `n` bytes at the iterator, with the bytes behind them. -/
def readBytes (n : ℕ) (it : List UInt8) : Except Fault (List UInt8 × List UInt8) :=
  if n ≤ it.length then .ok (it.take n, it.drop n) else .error .outOfBounds

/-- A read of an unsigned integer of `n` bytes at the iterator. -/
def readUint (n : ℕ) (it : List UInt8) : Except Fault (ℕ × List UInt8) := do
  let (bytes, it) ← readBytes n it
  return (leNat bytes, it)

/-- A read returns when its bytes are there, and never otherwise. -/
theorem readBytes_eq_ok_iff {n : ℕ} {it bytes rest : List UInt8} :
    readBytes n it = .ok (bytes, rest) ↔ bytes.length = n ∧ it = bytes ++ rest := by
  unfold readBytes
  split_ifs with h
  · constructor
    · intro heq
      obtain ⟨rfl, rfl⟩ : it.take n = bytes ∧ it.drop n = rest := by
        injection heq with heq
        exact Prod.mk.inj heq
      exact ⟨by simp [h], (List.take_append_drop n it).symm⟩
    · rintro ⟨rfl, rfl⟩
      simp
  · constructor
    · intro heq
      cases heq
    · rintro ⟨rfl, rfl⟩
      simp at h

/-- Reading an integer is reading its bytes. -/
theorem readUint_eq_ok_iff {n k : ℕ} {it rest : List UInt8} :
    readUint n it = .ok (k, rest) ↔
      ∃ bytes, bytes.length = n ∧ it = bytes ++ rest ∧ k = leNat bytes := by
  unfold readUint
  rw [Except.bind_eq_ok_iff]
  constructor
  · rintro ⟨⟨bytes, rest'⟩, hr, h⟩
    cases h
    obtain ⟨hlen, hit⟩ := readBytes_eq_ok_iff.mp hr
    exact ⟨bytes, hlen, hit, rfl⟩
  · rintro ⟨bytes, hlen, hit, rfl⟩
    exact ⟨(bytes, rest), readBytes_eq_ok_iff.mpr ⟨hlen, hit⟩, rfl⟩

/-! ## JSON values -/

/-- `nlohmann::json`. A float is its bit pattern, and an object is its list of entries. -/
inductive Json
  | null
  | boolean (v : Bool)
  | numberInteger (v : Int64)
  | numberUnsigned (v : UInt64)
  | numberFloat (bits : UInt64)
  | string (v : String)
  | binary (data : List UInt8) (subtype : Option UInt64)
  | array (js : List Json)
  | object (kvs : List (String × Json))

/-- The shape of an `ndarray_t`: `n` dimensions of four bytes. -/
def readShape : ℕ → List UInt8 → Except Fault (List UInt64 × List UInt8)
  | 0, it => .ok ([], it)
  | n + 1, it => do
    let (dim, it) ← readUint 4 it
    let (dims, it) ← readShape n it
    return (UInt64.ofNat dim :: dims, it)

/-- `resize` of a vector of bytes, which throws for a size that no vector has. -/
def resizeBytes (n : ℕ) : Except Fault Unit :=
  if 2 ^ 63 ≤ n then .error (.exception "vector::_M_default_append") else .ok ()

/-- `ndarray_t::from_nlohmann_json`. -/
def ndarrayFromNlohmannJson (j : List UInt8) : Except Fault Value := do
  let (ndim, it) ← readUint 4 j
  let (shape, it) ← readShape ndim it
  let (code, it) ← readUint 1 it
  let (bits, it) ← readUint 1 it
  let (lanes, it) ← readUint 2 it
  let (ndatalen, it) ← readUint 8 it
  resizeBytes ndatalen
  let (data, _) ← readBytes ndatalen it
  return .ndarray shape ⟨UInt8.ofNat code, UInt8.ofNat bits, UInt16.ofNat lanes⟩ data

mutual

/-- `from_nlohmann_json`. -/
def fromNlohmannJson : Json → Except Fault Value
  | .null => .ok .null
  | .boolean v => .ok (.bool v)
  | .string v => .ok (.string v)
  | .binary data subtype =>
    match subtype with
    | some code =>
      if code = 1801 then ndarrayFromNlohmannJson data
      else .error (.exception "Cannot handle code")
    | none => .ok (.bytes data)
  | .numberInteger v => .ok (.int v)
  | .numberUnsigned v => .ok (.uint v)
  | .numberFloat bits => .ok (.double bits)
  | .array js => (fromNlohmannArray js).map .array
  | .object kvs => (fromNlohmannObject kvs).map .map

/-- The elements of an array, in order. -/
def fromNlohmannArray : List Json → Except Fault (List Value)
  | [] => .ok []
  | j :: js => do
    let v ← fromNlohmannJson j
    let vs ← fromNlohmannArray js
    return v :: vs

/-- The entries of an object, in order. -/
def fromNlohmannObject : List (String × Json) → Except Fault (List (String × Value))
  | [] => .ok []
  | (key, j) :: kvs => do
    let v ← fromNlohmannJson j
    let vs ← fromNlohmannObject kvs
    return (key, v) :: vs

end

/-- `decode` with the CBOR method, over the library's parser. -/
def decode (fromCbor : List UInt8 → Except Fault Json) (bytes : List UInt8) :
    Except Fault Value :=
  fromCbor bytes >>= fromNlohmannJson

end Ailoy
