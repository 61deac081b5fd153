import Ailoy.Core.PacketCodec
import Ailoy.Core.ValueRoundTrip

/-!
# The round trip of a packet

`dump_packet` of `core/src/packet.cpp`, and what `load_packet` makes of its bytes. The size of the
encoded headers is written in two bytes and that of the encoded body in four, without a check, so
`load_packet` finds the headers and the body of a packet exactly when the sizes fit
(`roundTrips_of_fitsWire`, `fitsWire_of_roundTrips`). The sizes are those of the library's
encodings, so they depend on the transaction id, on the names, and on the value that the packet
carries.
-/

namespace Ailoy

/-! ## Dumping packets -/

/-- The byte of a packet type. -/
def PacketType.code : PacketType → UInt8
  | .connect => 0
  | .disconnect => 1
  | .subscribe => 2
  | .unsubscribe => 3
  | .execute => 4
  | .respond => 16
  | .respondExecute => 17
  | .unknown code => code

namespace Packet

variable (toCbor : Json → List UInt8) (fromCbor : List UInt8 → Except Fault Json)

/-- The encoded headers, nothing for a null pointer. -/
def headerBytes (p : Packet) : Option (List UInt8) :=
  p.headers.map fun hs => (Value.array hs).encode toCbor

/-- The encoded body, nothing for a null pointer. -/
def bodyBytes (p : Packet) : Option (List UInt8) :=
  p.body.map fun kvs => (Value.map kvs).encode toCbor

/-- The bytes in front of the headers. -/
def preamble (p : Packet) : List UInt8 :=
  p.ptype.code :: (p.itype.map InstructionType.code).toList

/-- The bytes that are written for an encoded part: its size in `n` bytes, and itself. -/
def sized (n : ℕ) : Option (List UInt8) → List UInt8
  | none => []
  | some bytes => leBytes n bytes.length ++ bytes

/-- `dump_packet`. The buffer has the room for both sizes, and what is not written of it is zero. -/
def dump (p : Packet) : List UInt8 :=
  let headerBytes := p.headerBytes toCbor
  let bodyBytes := p.bodyBytes toCbor
  let bytesSize := p.preamble.length + 2 + (headerBytes.getD []).length + 4 +
    (bodyBytes.getD []).length
  let written := p.preamble ++ (sized 2 headerBytes ++ sized 4 bodyBytes)
  written ++ List.replicate (bytesSize - written.length) 0

/-- The packets that the `dump_packet` templates build. -/
inductive Built : Packet → Prop
  | connect (txId : TxId) : Built (connect txId)
  | disconnect (txId : TxId) : Built (disconnect txId)
  | subscribe (txId : TxId) (i : Instruction) : Built (subscribe txId i)
  | unsubscribe (txId : TxId) (i : Instruction) : Built (unsubscribe txId i)
  | execute (txId : TxId) (r : Request) : Built (execute txId r)
  | respond (txId : TxId) : Built (respond txId)
  | respondError (txId : TxId) (reason : String) : Built (respondError txId reason)
  | respondExecute (txId : TxId) (sequence : ℕ) (finish : Bool) (out : Value) :
      Built (respondExecute txId sequence finish out)
  | respondExecuteError (txId : TxId) (sequence : ℕ) (reason : String) :
      Built (respondExecuteError txId sequence reason)

/-- The two parts of a packet that are encoded. -/
def parts (p : Packet) : List Value :=
  (p.headers.map Value.array).toList ++ (p.body.map Value.map).toList

/-- What `load_packet` should make of the bytes of `dump_packet`: with the body, a packet of the
same types, with the same headers, and with the normalised body, and without it, one of the same
types and with the same headers, hence of the same transaction and channel. -/
def RoundTrips (p : Packet) : Prop :=
  (∃ p', loadPacket fromCbor (p.dump toCbor) false = .ok p' ∧ p'.ptype = p.ptype ∧
    p'.itype = p.itype ∧ p'.headers = p.headers ∧
    ∃ kvs kvs', p.body = some kvs ∧ p'.body = some kvs' ∧
      (Value.map kvs').Same (Value.map kvs).norm) ∧
  ∃ p', loadPacket fromCbor (p.dump toCbor) true = .ok p' ∧ p'.ptype = p.ptype ∧
    p'.itype = p.itype ∧ p'.headers = p.headers ∧ p'.getTxId = p.getTxId ∧
    p'.getChannel = p.getChannel

/-- The sizes of the encoded parts fit the bytes that they are written in, and so do the ranks and
the dimensions of the arrays in the body. -/
structure FitsWire (p : Packet) : Prop where
  header : ∀ bytes, p.headerBytes toCbor = some bytes → bytes.length < 2 ^ 16
  body : ∀ bytes, p.bodyBytes toCbor = some bytes → bytes.length < 2 ^ 32
  small : ∀ kvs, p.body = some kvs → (Value.map kvs).Small

end Packet

/-- The library's reader refuses what is not a whole document: a beginning of what the writer has
written, which is never empty. -/
structure Json.Delimited (toCbor : Json → List UInt8) (fromCbor : List UInt8 → Except Fault Json)
    (j : Json) : Prop where
  nonempty : toCbor j ≠ []
  proper : ∀ bytes, bytes <+: toCbor j → bytes ≠ toCbor j → ∃ f, fromCbor bytes = .error f

namespace Packet

/-! ## The parts of a built packet -/

/-- What the built packets have in common: both parts are there, the headers come back as they are,
and the bytes of the types stand for the types. -/
structure Framing (p : Packet) (hs : List Value) (kvs : List (String × Value)) : Prop where
  headers : p.headers = some hs
  body : p.body = some kvs
  plain : ∀ h ∈ hs, h.trip = .ok h
  ptype : PacketType.ofByte p.ptype.code = p.ptype
  itype : match p.itype with
    | none => p.ptype.hasInstruction = false
    | some i => p.ptype.hasInstruction = true ∧ InstructionType.ofByte i.code = i

@[simp] theorem trip_string (s : String) : (Value.string s).trip = .ok (.string s) := rfl
@[simp] theorem trip_uint (n : UInt64) : (Value.uint n).trip = .ok (.uint n) := rfl
@[simp] theorem trip_bool (b : Bool) : (Value.bool b).trip = .ok (.bool b) := rfl

/-- The transaction id and the names of an instruction. -/
theorem trip_names (txId : TxId) (i : Instruction) :
    ∀ h ∈ (.string txId :: i.names.map .string : List Value), h.trip = .ok h := by
  simp

theorem ofByte_itype (i : Instruction) : InstructionType.ofByte i.itype.code = i.itype := by
  cases i <;> rfl

/-- Every built packet is framed. -/
theorem Built.framing {p : Packet} (h : p.Built) : ∃ hs kvs, p.Framing hs kvs := by
  cases h with
  | connect txId => exact ⟨_, _, rfl, rfl, by simp, rfl, rfl⟩
  | disconnect txId => exact ⟨_, _, rfl, rfl, by simp, rfl, rfl⟩
  | subscribe txId i => exact ⟨_, _, rfl, rfl, trip_names txId i, rfl, rfl, ofByte_itype i⟩
  | unsubscribe txId i => exact ⟨_, _, rfl, rfl, trip_names txId i, rfl, rfl, ofByte_itype i⟩
  | execute txId r =>
    exact ⟨_, _, rfl, rfl, trip_names txId r.instruction, rfl, rfl, ofByte_itype r.instruction⟩
  | respond txId => exact ⟨_, _, rfl, rfl, by simp, rfl, rfl⟩
  | respondError txId reason => exact ⟨_, _, rfl, rfl, by simp, rfl, rfl⟩
  | respondExecute txId seq fin out => exact ⟨_, _, rfl, rfl, by simp, rfl, rfl⟩
  | respondExecuteError txId seq reason => exact ⟨_, _, rfl, rfl, by simp, rfl, rfl⟩

/-- Headers that come back one by one come back together. -/
theorem trip_headers {hs : List Value} (h : ∀ v ∈ hs, v.trip = .ok v) :
    (Value.array hs).trip = .ok (.array hs) :=
  Value.trip_array_iff.mpr ⟨hs, rfl, List.forall₂_same.mpr h⟩

/-! ## Loading dumped bytes -/

section Loading

variable {toCbor : Json → List UInt8} {fromCbor : List UInt8 → Except Fault Json} {p : Packet}
  {hs : List Value} {kvs : List (String × Value)}

/-- A framed packet fills its buffer. -/
theorem Framing.dump_eq (hp : p.Framing hs kvs) : p.dump toCbor =
    p.preamble ++ ((leBytes 2 ((Value.array hs).encode toCbor).length ++
        (Value.array hs).encode toCbor) ++
      (leBytes 4 ((Value.map kvs).encode toCbor).length ++ (Value.map kvs).encode toCbor)) := by
  have hheader : p.headerBytes toCbor = some ((Value.array hs).encode toCbor) := by
    rw [headerBytes, hp.headers]
    rfl
  have hbody : p.bodyBytes toCbor = some ((Value.map kvs).encode toCbor) := by
    rw [bodyBytes, hp.body]
    rfl
  unfold dump
  rw [hheader, hbody]
  simp only [sized, Option.getD_some, List.length_append, leBytes_length]
  rw [Nat.sub_eq_zero_of_le (by omega), List.replicate_zero, List.append_nil]

/-- Behind the preamble of a framed packet, `load_packet` goes on with its types. -/
theorem Framing.loadPacket_preamble (hp : p.Framing hs kvs) (rest : List UInt8)
    (skipBody : Bool) : loadPacket fromCbor (p.preamble ++ rest) skipBody = (do
      let (size, it) ← readUint 2 rest
      let (headerBytes, it) ← readBytes size it
      let headers ← decode fromCbor headerBytes
      if skipBody then
        return ⟨p.ptype, p.itype, headers.asArray, none⟩
      else do
        let body ← loadBody fromCbor it
        return ⟨p.ptype, p.itype, headers.asArray, body⟩) := by
  have hbyte : ∀ (code : UInt8) (it : List UInt8),
      readUint 1 (code :: it) = .ok (code.toNat, it) := by
    intro code it
    have hone : code.toNat < 256 ^ 1 := code.toNat_lt
    have hread := readUint_leBytes hone it
    simpa [leBytes] using hread
  have hitype := hp.itype
  unfold loadPacket preamble
  rw [List.cons_append, hbyte, Except.ok_bind]
  simp only [UInt8.ofNat_toNat, hp.ptype]
  cases hi : p.itype with
  | none =>
    simp only [hi] at hitype
    simp only [loadInstructionType, hitype]
    rfl
  | some i =>
    simp only [hi] at hitype
    obtain ⟨hins, hbytei⟩ := hitype
    simp only [loadInstructionType, hins, if_true, Option.map_some, Option.toList_some,
      List.cons_append, List.nil_append, hbyte, Except.ok_bind, UInt8.ofNat_toNat, hbytei]
    rfl

/-- What is read of an encoded part when its size did not fit: a proper beginning of it. -/
theorem readBytes_truncated {bytes : List UInt8} (rest : List UInt8) {m : ℕ}
    (h : m < bytes.length) :
    ∃ it, readBytes m (bytes ++ rest) = .ok (bytes.take m, it) ∧ bytes.take m <+: bytes ∧
      bytes.take m ≠ bytes := by
  refine ⟨bytes.drop m ++ rest, ?_, List.take_prefix m bytes, fun heq => ?_⟩
  · rw [readBytes_eq_ok_iff]
    refine ⟨List.length_take_of_le h.le, ?_⟩
    rw [← List.append_assoc, List.take_append_drop]
  · have hlen := congrArg List.length heq
    rw [List.length_take_of_le h.le] at hlen
    omega

/-- Headers that fit are found, and `load_packet` goes on behind them. -/
theorem Framing.loadPacket_dump (hp : p.Framing hs kvs)
    (hcbor : Json.Inverts toCbor fromCbor (Value.array hs).toNlohmannJson)
    (hfit : ((Value.array hs).encode toCbor).length < 2 ^ 16) (skipBody : Bool) :
    loadPacket fromCbor (p.dump toCbor) skipBody =
      if skipBody then .ok ⟨p.ptype, p.itype, some hs, none⟩
      else (loadBody fromCbor (leBytes 4 ((Value.map kvs).encode toCbor).length ++
        (Value.map kvs).encode toCbor)).map fun body => ⟨p.ptype, p.itype, some hs, body⟩ := by
  have hdecode : decode fromCbor ((Value.array hs).encode toCbor) = .ok (.array hs) :=
    (Value.decode_eq_trip hcbor).trans (trip_headers hp.plain)
  rw [hp.dump_eq, hp.loadPacket_preamble, List.append_assoc, readUint_leBytes (by omega),
    Except.ok_bind]
  dsimp only
  rw [readBytes_append, Except.ok_bind]
  dsimp only
  rw [hdecode, Except.ok_bind]
  cases skipBody with
  | true => rfl
  | false =>
    cases loadBody fromCbor (leBytes 4 ((Value.map kvs).encode toCbor).length ++
      (Value.map kvs).encode toCbor) <;> rfl

/-- Headers that do not fit are cut, and the reader refuses them. -/
theorem Framing.loadPacket_dump_error (hp : p.Framing hs kvs)
    (hcbor : Json.Delimited toCbor fromCbor (Value.array hs).toNlohmannJson)
    (hlong : 2 ^ 16 ≤ ((Value.array hs).encode toCbor).length) (skipBody : Bool) :
    ∃ f, loadPacket fromCbor (p.dump toCbor) skipBody = .error f := by
  have hcut : ((Value.array hs).encode toCbor).length % 256 ^ 2 <
      ((Value.array hs).encode toCbor).length := by omega
  obtain ⟨it, hread, hprefix, hne⟩ := readBytes_truncated (leBytes 4
    ((Value.map kvs).encode toCbor).length ++ (Value.map kvs).encode toCbor) hcut
  obtain ⟨f, hf⟩ := hcbor.proper _ hprefix hne
  refine ⟨f, ?_⟩
  rw [hp.dump_eq, hp.loadPacket_preamble, List.append_assoc, readUint_leBytes_mod, Except.ok_bind]
  dsimp only
  rw [hread, Except.ok_bind]
  dsimp only
  rw [decode, hf, Except.error_bind, Except.error_bind]

/-- A body that fits is found. -/
theorem loadBody_encode
    (hcbor : Json.Inverts toCbor fromCbor (Value.map kvs).toNlohmannJson)
    (hne : (Value.map kvs).encode toCbor ≠ [])
    (hfit : ((Value.map kvs).encode toCbor).length < 2 ^ 32) :
    loadBody fromCbor (leBytes 4 ((Value.map kvs).encode toCbor).length ++
      (Value.map kvs).encode toCbor) = (Value.map kvs).trip.map Value.asMap := by
  have hpos : 0 < ((Value.map kvs).encode toCbor).length := List.length_pos_iff.mpr hne
  have hend : readBytes ((Value.map kvs).encode toCbor).length ((Value.map kvs).encode toCbor) =
      .ok ((Value.map kvs).encode toCbor, []) := by
    have hall := readBytes_append ((Value.map kvs).encode toCbor) []
    rwa [List.append_nil] at hall
  unfold loadBody
  rw [readUint_leBytes (by omega), Except.ok_bind]
  dsimp only
  rw [if_pos hpos, hend, Except.ok_bind]
  dsimp only
  rw [Value.decode_eq_trip hcbor]
  cases (Value.map kvs).trip <;> rfl

/-- A body that does not fit is cut: it is refused, or left out when nothing remains of its size. -/
theorem loadBody_long
    (hcbor : Json.Delimited toCbor fromCbor (Value.map kvs).toNlohmannJson)
    (hlong : 2 ^ 32 ≤ ((Value.map kvs).encode toCbor).length) :
    ∀ kvs', loadBody fromCbor (leBytes 4 ((Value.map kvs).encode toCbor).length ++
      (Value.map kvs).encode toCbor) ≠ .ok (some kvs') := by
  intro kvs'
  have hcut : ((Value.map kvs).encode toCbor).length % 256 ^ 4 <
      ((Value.map kvs).encode toCbor).length := by omega
  obtain ⟨it, hread, hprefix, hne⟩ := readBytes_truncated [] hcut
  rw [List.append_nil] at hread
  obtain ⟨f, hf⟩ := hcbor.proper _ hprefix hne
  unfold loadBody
  rw [readUint_leBytes_mod, Except.ok_bind]
  dsimp only
  split_ifs with hpos
  · rw [hread, Except.ok_bind]
    dsimp only
    rw [decode, hf, Except.error_bind, Except.error_bind]
    intro h
    cases h
  · intro h
    cases h

/-! ## When the round trip works -/

/-- The transaction id is read from the headers. -/
theorem getTxId_congr {p q : Packet} (h : p.headers = q.headers) : p.getTxId = q.getTxId := by
  obtain ⟨_, _, headers, _⟩ := p
  obtain ⟨_, _, headers', _⟩ := q
  obtain rfl : headers = headers' := h
  rfl

/-- The channel is read from the instruction type and the headers. -/
theorem getChannel_congr {p q : Packet} (hi : p.itype = q.itype) (h : p.headers = q.headers) :
    p.getChannel = q.getChannel := by
  obtain ⟨_, itype, headers, _⟩ := p
  obtain ⟨_, itype', headers', _⟩ := q
  obtain rfl : itype = itype' := hi
  obtain rfl : headers = headers' := h
  rfl

theorem Framing.mem_parts (hp : p.Framing hs kvs) :
    Value.array hs ∈ p.parts ∧ Value.map kvs ∈ p.parts := by
  unfold parts
  rw [hp.headers, hp.body]
  simp

/-- The three sizes of a framed packet. -/
theorem Framing.fitsWire_iff (hp : p.Framing hs kvs) : p.FitsWire toCbor ↔
    ((Value.array hs).encode toCbor).length < 2 ^ 16 ∧
      ((Value.map kvs).encode toCbor).length < 2 ^ 32 ∧ (Value.map kvs).Small := by
  constructor
  · intro h
    refine ⟨h.header _ ?_, h.body _ ?_, h.small kvs hp.body⟩
    · rw [headerBytes, hp.headers]
      rfl
    · rw [bodyBytes, hp.body]
      rfl
  · rintro ⟨hheader, hbody, hsmall⟩
    refine ⟨fun bytes hb => ?_, fun bytes hb => ?_, fun kvs' hk => ?_⟩
    · rw [headerBytes, hp.headers] at hb
      rwa [← Option.some.inj hb]
    · rw [bodyBytes, hp.body] at hb
      rwa [← Option.some.inj hb]
    · rw [hp.body] at hk
      rwa [← Option.some.inj hk]

/-- A packet whose sizes fit comes back. -/
theorem Framing.roundTrips (hp : p.Framing hs kvs) (hvalid : (Value.map kvs).Valid)
    (hcbor : ∀ v ∈ p.parts, Json.Inverts toCbor fromCbor v.toNlohmannJson ∧
      Json.Delimited toCbor fromCbor v.toNlohmannJson)
    (hfit : p.FitsWire toCbor) : p.RoundTrips toCbor fromCbor := by
  obtain ⟨hheader, hbody, hsmall⟩ := hp.fitsWire_iff.mp hfit
  obtain ⟨hinv, -⟩ := hcbor _ hp.mem_parts.1
  obtain ⟨hinvBody, hdelBody⟩ := hcbor _ hp.mem_parts.2
  have hload := hp.loadPacket_dump hinv hheader
  obtain ⟨w, hw, hrec⟩ := Value.received_of_small _ hvalid hsmall
  obtain ⟨kvs', rfl, -⟩ := Value.trip_map_iff.mp hw
  refine ⟨⟨⟨p.ptype, p.itype, some hs, some kvs'⟩, ?_, rfl, rfl, hp.headers.symm, kvs, kvs',
    hp.body, rfl, hrec.same⟩, ⟨p.ptype, p.itype, some hs, none⟩, hload true, rfl, rfl,
    hp.headers.symm, ?_, ?_⟩
  · rw [hload false, loadBody_encode hinvBody hdelBody.nonempty hbody, hw]
    rfl
  · exact getTxId_congr hp.headers.symm
  · exact getChannel_congr rfl hp.headers.symm

/-- A packet that comes back has sizes that fit. -/
theorem Framing.fitsWire (hp : p.Framing hs kvs) (hvalid : (Value.map kvs).Valid)
    (hcbor : ∀ v ∈ p.parts, Json.Inverts toCbor fromCbor v.toNlohmannJson ∧
      Json.Delimited toCbor fromCbor v.toNlohmannJson)
    (h : p.RoundTrips toCbor fromCbor) : p.FitsWire toCbor := by
  obtain ⟨⟨p', hload, -, -, -, kvs₁, kvs', hbody₁, hbody', hsame⟩, -⟩ := h
  obtain rfl : kvs = kvs₁ := Option.some.inj (hp.body.symm.trans hbody₁)
  obtain ⟨hinv, hdel⟩ := hcbor _ hp.mem_parts.1
  obtain ⟨hinvBody, hdelBody⟩ := hcbor _ hp.mem_parts.2
  have hheader : ((Value.array hs).encode toCbor).length < 2 ^ 16 := by
    by_contra hlong
    obtain ⟨f, hf⟩ := hp.loadPacket_dump_error hdel (not_lt.mp hlong) false
    rw [hf] at hload
    cases hload
  rw [hp.loadPacket_dump hinv hheader] at hload
  obtain ⟨body, hloadBody, rfl⟩ := Except.map_eq_ok_iff.mp hload
  obtain rfl : body = some kvs' := hbody'
  have hbody : ((Value.map kvs).encode toCbor).length < 2 ^ 32 := by
    by_contra hlong
    exact loadBody_long hdelBody (not_lt.mp hlong) kvs' hloadBody
  rw [loadBody_encode hinvBody hdelBody.nonempty hbody] at hloadBody
  obtain ⟨w, hw, hmap⟩ := Except.map_eq_ok_iff.mp hloadBody
  obtain ⟨kws, rfl, -⟩ := Value.trip_map_iff.mp hw
  obtain rfl : kws = kvs' := Option.some.inj hmap
  exact hp.fitsWire_iff.mpr ⟨hheader, hbody, Value.small_of_same hvalid hw hsame⟩

end Loading

/-- The bytes of a built packet give the packet back exactly when its encoded headers have less than
`2^16` bytes, its encoded body has less than `2^32`, and the arrays in it have small shapes. The
library's reader is assumed to invert its writer on the two parts of the packet and to refuse what
is cut off. -/
theorem roundTrips_iff (toCbor : Json → List UInt8) (fromCbor : List UInt8 → Except Fault Json)
    (p : Packet) (hbuilt : p.Built) (hvalid : ∀ kvs, p.body = some kvs → (Value.map kvs).Valid)
    (hcbor : ∀ v ∈ p.parts, Json.Inverts toCbor fromCbor v.toNlohmannJson ∧
      Json.Delimited toCbor fromCbor v.toNlohmannJson) :
    p.RoundTrips toCbor fromCbor ↔ p.FitsWire toCbor := by
  obtain ⟨hs, kvs, hp⟩ := hbuilt.framing
  have hbody := hvalid kvs hp.body
  exact ⟨hp.fitsWire hbody hcbor, hp.roundTrips hbody hcbor⟩

/-- `to_cbor` on the two parts of a `disconnect` packet: its headers have the encoding
`headerBytes`, and the other part is the empty map. -/
def disconnectToCbor (headerBytes : List UInt8) : Json → List UInt8
  | .object _ => [0xA0]
  | _ => headerBytes

/-- `from_cbor` on these encodings, and an error elsewhere. -/
def disconnectFromCbor (txId : TxId) (headerBytes bytes : List UInt8) : Except Fault Json :=
  if bytes = [0xA0] then .ok (.object [])
  else if bytes = headerBytes then .ok (.array [.string txId])
  else .error (.exception "parse error")

/-- The two functions are a library that inverts its writer and refuses what is cut off. -/
theorem disconnectCbor_laws {txId : TxId} {header : UInt8} {rest : List UInt8}
    (hne : header ≠ 0xA0) : ∀ v ∈ (disconnect txId).parts,
    Json.Inverts (disconnectToCbor (header :: rest)) (disconnectFromCbor txId (header :: rest))
        v.toNlohmannJson ∧
      Json.Delimited (disconnectToCbor (header :: rest)) (disconnectFromCbor txId (header :: rest))
        v.toNlohmannJson := by
  have hhead : ∀ tail : List UInt8, header :: rest ≠ 0xA0 :: tail := fun tail h =>
    hne (List.cons.inj h).1
  intro v hv
  obtain rfl | rfl : v = .array [.string txId] ∨ v = .map [] := by
    simpa [parts, disconnect] using hv
  · refine ⟨?_, List.cons_ne_nil _ _, fun bytes hprefix (hcut : bytes ≠ header :: rest) => ?_⟩
    · show disconnectFromCbor txId (header :: rest) (header :: rest) = _
      unfold disconnectFromCbor
      rw [if_neg (hhead []), if_pos rfl]
      rfl
    · refine ⟨.exception "parse error", ?_⟩
      unfold disconnectFromCbor
      rw [if_neg, if_neg hcut]
      rintro rfl
      obtain ⟨tail, htail⟩ := hprefix
      exact hhead tail htail.symm
  · refine ⟨rfl, List.cons_ne_nil _ _, fun bytes hprefix hcut => ?_⟩
    have hnil : bytes = [] := by
      rcases List.prefix_cons_iff.mp hprefix with hnil | ⟨tail, rfl, htail⟩
      · exact hnil
      · rw [List.prefix_nil.mp htail] at hcut
        exact absurd rfl hcut
    subst hnil
    exact ⟨.exception "parse error", rfl⟩

theorem roundTrips_iff_disconnect : (disconnect "t").RoundTrips
    (disconnectToCbor [0x81, 0x61, 0x74]) (disconnectFromCbor "t" [0x81, 0x61, 0x74]) := by
  have hempty : ∀ kvs, (disconnect "t").body = some kvs → kvs = [] := fun kvs h =>
    (Option.some.inj h).symm
  have hleaf : ∀ u : Value, ¬ u.Child (.map []) := by simp [Value.Child]
  refine (roundTrips_iff _ _ (disconnect "t") (.disconnect "t") ?_
    (disconnectCbor_laws (by decide))).mpr ⟨?_, ?_, ?_⟩
  · intro kvs h
    rw [hempty kvs h]
    exact Value.everywhere_leaf List.nodup_nil hleaf
  · rintro bytes ⟨⟩
    decide
  · rintro bytes ⟨⟩
    decide
  · intro kvs h
    rw [hempty kvs h]
    exact Value.everywhere_leaf trivial hleaf

/-- A transaction id of `2^16` bytes. -/
def longTxId : TxId := String.ofList (List.replicate (2 ^ 16) 'a')

/-- The CBOR encoding of the headers of `disconnect longTxId`, but for its first byte. -/
def longHeaderTail : List UInt8 := [0x7A, 0x00, 0x01, 0x00, 0x00] ++ List.replicate (2 ^ 16) 0x61

/-- `disconnect longTxId` does not come back: `load_packet` reads the first six bytes of the encoded
headers, which the reader refuses. -/
theorem longTxId_not_roundTrips : ∃ toCbor fromCbor,
    (∀ v ∈ (disconnect longTxId).parts, Json.Inverts toCbor fromCbor v.toNlohmannJson ∧
      Json.Delimited toCbor fromCbor v.toNlohmannJson) ∧
    ¬ (disconnect longTxId).RoundTrips toCbor fromCbor := by
  have hlaws := @disconnectCbor_laws longTxId 0x81 longHeaderTail (by decide)
  refine ⟨_, _, hlaws, ?_⟩
  obtain ⟨hs, kvs, hp⟩ := (Built.disconnect longTxId).framing
  rintro ⟨-, p', hload, -⟩
  have hlong : 2 ^ 16 ≤
      ((Value.array hs).encode (disconnectToCbor (0x81 :: longHeaderTail))).length := by
    show 2 ^ 16 ≤ (0x81 :: longHeaderTail).length
    unfold longHeaderTail
    rw [List.length_cons, List.length_append, List.length_replicate]
    omega
  obtain ⟨f, hf⟩ := hp.loadPacket_dump_error (hlaws _ hp.mem_parts.1).2 hlong true
  rw [hf] at hload
  cases hload

end Packet

end Ailoy
