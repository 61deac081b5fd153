import Ailoy.Broker.Network
import Ailoy.Core.PacketCodec

/-!
# One client's bytes and the other clients' entries

An iteration of the broker's loop on the bytes of a message: `load_packet` without the body, and the
switch. `load_packet` trusts the lengths in the message and the cases trust its headers, so the
iteration returns on exactly the messages of `WellFormed` (`onMessage_ok_iff`): the bytes that the
preamble promises are there, the encoded headers decode to an array, and the elements that the
packet type reads have their types. On these it reads nothing outside the message, and it leaves the
entries of the other clients alone but for the two things that the protocol lets any client do:
finish a transaction by a `respond_execute`, and take its id over by an `execute`.
-/

namespace Ailoy

open Transition

/-! ## Framing -/

/-- The bytes are framed as a packet with encoded headers `header`: the preamble is complete, and
its length field does not promise more than there is. -/
inductive Framed : List UInt8 → PacketType → Option InstructionType → List UInt8 → Prop
  | plain {code : UInt8} {size header rest : List UInt8} :
      (PacketType.ofByte code).hasInstruction = false → size.length = 2 →
      header.length = leNat size →
      Framed ([code] ++ (size ++ (header ++ rest))) (.ofByte code) none header
  | instruction {code icode : UInt8} {size header rest : List UInt8} :
      (PacketType.ofByte code).hasInstruction = true → size.length = 2 →
      header.length = leNat size →
      Framed ([code] ++ ([icode] ++ (size ++ (header ++ rest)))) (.ofByte code)
        (some (.ofByte icode)) header

/-- One byte, read as an integer, is itself. -/
theorem ofNat_leNat_singleton (code : UInt8) : UInt8.ofNat (leNat [code]) = code := by
  simp [leNat]

/-- Reading a byte is taking the first one. -/
theorem readUint_one_eq_ok_iff {k : ℕ} {it rest : List UInt8} :
    readUint 1 it = .ok (k, rest) ↔ ∃ code, it = [code] ++ rest ∧ k = leNat [code] := by
  rw [readUint_eq_ok_iff]
  constructor
  · rintro ⟨bytes, hlen, hit, rfl⟩
    obtain ⟨code, rfl⟩ := List.length_eq_one_iff.mp hlen
    exact ⟨code, hit, rfl⟩
  · rintro ⟨code, hit, rfl⟩
    exact ⟨[code], rfl, hit, rfl⟩

/-- `load_packet` without the body returns exactly on framed bytes whose headers decode. -/
theorem loadPacket_eq_ok_iff {fromCbor : List UInt8 → Except Fault Json} {msg : List UInt8}
    {pkt : Packet} : loadPacket fromCbor msg true = .ok pkt ↔
      ∃ header v, Framed msg pkt.ptype pkt.itype header ∧ decode fromCbor header = .ok v ∧
        pkt.headers = v.asArray ∧ pkt.body = none := by
  unfold loadPacket
  rw [Except.bind_eq_ok_iff]
  constructor
  · rintro ⟨⟨k, it⟩, hk, htail⟩
    obtain ⟨code, rfl, rfl⟩ := readUint_one_eq_ok_iff.mp hk
    simp only [ofNat_leNat_singleton, if_true] at htail
    obtain ⟨⟨itype, it₁⟩, hitype, htail₁⟩ := Except.bind_eq_ok_iff.mp htail
    obtain ⟨⟨size, it₂⟩, hsize, htail₂⟩ := Except.bind_eq_ok_iff.mp htail₁
    obtain ⟨⟨header, rest⟩, hheader, htail₃⟩ := Except.bind_eq_ok_iff.mp htail₂
    obtain ⟨v, hv, hpkt⟩ := Except.bind_eq_ok_iff.mp htail₃
    obtain ⟨sizeBytes, hlen, rfl, rfl⟩ := readUint_eq_ok_iff.mp hsize
    obtain ⟨hhlen, rfl⟩ := readBytes_eq_ok_iff.mp hheader
    cases hpkt
    refine ⟨header, v, ?_, hv, rfl, rfl⟩
    unfold loadInstructionType at hitype
    split_ifs at hitype with hins
    · obtain ⟨⟨k, it⟩, hk, hitype⟩ := Except.bind_eq_ok_iff.mp hitype
      obtain ⟨icode, rfl, rfl⟩ := readUint_one_eq_ok_iff.mp hk
      simp only [ofNat_leNat_singleton] at hitype
      cases hitype
      exact .instruction hins hlen hhlen
    · cases hitype
      exact .plain (by simpa using hins) hlen hhlen
  · obtain ⟨ptype, itype, headers, body⟩ := pkt
    rintro ⟨header, v, hf, hv, rfl, rfl⟩
    cases hf with
    | @plain code size _ rest hins hlen hhlen =>
      refine ⟨_, readUint_one_eq_ok_iff.mpr ⟨code, rfl, rfl⟩, ?_⟩
      simp only [ofNat_leNat_singleton, loadInstructionType, hins, Bool.false_eq_true, if_false]
      refine Except.bind_eq_ok_iff.mpr ⟨_, rfl, ?_⟩
      refine Except.bind_eq_ok_iff.mpr ⟨_, readUint_eq_ok_iff.mpr ⟨size, hlen, rfl, rfl⟩, ?_⟩
      refine Except.bind_eq_ok_iff.mpr ⟨_, readBytes_eq_ok_iff.mpr ⟨hhlen, rfl⟩, ?_⟩
      exact Except.bind_eq_ok_iff.mpr ⟨v, hv, rfl⟩
    | @instruction code icode size _ rest hins hlen hhlen =>
      refine ⟨_, readUint_one_eq_ok_iff.mpr ⟨code, rfl, rfl⟩, ?_⟩
      simp only [ofNat_leNat_singleton, loadInstructionType, hins, if_true]
      refine Except.bind_eq_ok_iff.mpr ⟨_, Except.bind_eq_ok_iff.mpr
        ⟨_, readUint_one_eq_ok_iff.mpr ⟨icode, rfl, rfl⟩, rfl⟩, ?_⟩
      simp only [ofNat_leNat_singleton]
      refine Except.bind_eq_ok_iff.mpr ⟨_, readUint_eq_ok_iff.mpr ⟨size, hlen, rfl, rfl⟩, ?_⟩
      refine Except.bind_eq_ok_iff.mpr ⟨_, readBytes_eq_ok_iff.mpr ⟨hhlen, rfl⟩, ?_⟩
      exact Except.bind_eq_ok_iff.mpr ⟨v, hv, rfl⟩

/-! ## Headers -/

namespace Packet

variable {p : Packet} {idx : ℕ}

/-- A header is read when the headers are an array that has it. -/
theorem header_eq_ok_iff {v : Value} :
    p.header idx = .ok v ↔ ∃ hs, p.headers = some hs ∧ hs[idx]? = some v := by
  unfold header Value.arrayAt
  cases p.headers with
  | none => simp
  | some hs => cases h : hs[idx]? <;> simp [h]

/-- A header of one type, with constructor `c`, is read when it is there and has the type. -/
theorem header_bind_eq_ok_iff {α : Type} {cast : Value → Except Fault α} {c : α → Value} {v : α}
    (hcast : ∀ w, cast w = .ok v ↔ w = c v) :
    p.header idx >>= cast = .ok v ↔ ∃ hs, p.headers = some hs ∧ hs[idx]? = some (c v) := by
  rw [Except.bind_eq_ok_iff, ← header_eq_ok_iff]
  constructor
  · rintro ⟨w, hw, hv⟩
    rwa [← (hcast w).mp hv]
  · exact fun h => ⟨c v, h, (hcast _).mpr rfl⟩

theorem stringHeader_eq_ok_iff {v : String} :
    p.stringHeader idx = .ok v ↔ ∃ hs, p.headers = some hs ∧ hs[idx]? = some (.string v) :=
  header_bind_eq_ok_iff fun w => by cases w <;> simp [Value.asString]

theorem uintHeader_eq_ok_iff {v : UInt64} :
    p.uintHeader idx = .ok v ↔ ∃ hs, p.headers = some hs ∧ hs[idx]? = some (.uint v) :=
  header_bind_eq_ok_iff fun w => by cases w <;> simp [Value.asUint]

theorem boolHeader_eq_ok_iff {v : Bool} :
    p.boolHeader idx = .ok v ↔ ∃ hs, p.headers = some hs ∧ hs[idx]? = some (.bool v) :=
  header_bind_eq_ok_iff fun w => by cases w <;> simp [Value.asBool]

/-- The guard of `get_tx_id` never holds, so it reads the first header. -/
theorem getTxId_eq : p.getTxId = p.stringHeader 0 := by
  unfold getTxId stringHeader header
  cases p.headers with
  | none => rfl
  | some hs => exact if_neg (Nat.not_lt_zero _)

end Packet

/-- The routing names that `get_channel` reads for an instruction type are there and are strings. -/
def NamesTyped (headers : List Value) : InstructionType → Prop
  | .callFunction | .defineComponent | .deleteComponent =>
    ∃ name, headers[1]? = some (.string name)
  | .callMethod =>
    (∃ name, headers[1]? = some (.string name)) ∧ ∃ opname, headers[2]? = some (.string opname)
  | .unknown _ => False

/-- The headers that an iteration reads for a packet type are there and have their types. -/
def HeadersTyped (headers : List Value) (itype : Option InstructionType) (ptype : PacketType) :
    Prop :=
  (∃ txId, headers[0]? = some (.string txId)) ∧
    match ptype with
    | .subscribe | .unsubscribe | .execute => ∃ i, itype = some i ∧ NamesTyped headers i
    | .respondExecute =>
      (∃ seq, headers[1]? = some (.uint seq)) ∧ ∃ fin, headers[2]? = some (.bool fin)
    | .connect | .disconnect | .respond | .unknown _ => True

/-- `get_channel` returns exactly when the routing names are there. -/
theorem Packet.getChannel_ok_iff {p : Packet} {hs : List Value} (h : p.headers = some hs) :
    (∃ channel, p.getChannel = .ok channel) ↔ ∃ i, p.itype = some i ∧ NamesTyped hs i := by
  have hstring : ∀ idx name, p.stringHeader idx = .ok name ↔ hs[idx]? = some (.string name) := by
    intro idx name
    rw [stringHeader_eq_ok_iff]
    simp [h]
  unfold getChannel
  cases p.itype with
  | none => simp
  | some i =>
    cases i with
    | callFunction | defineComponent | deleteComponent =>
      simp only [Except.bind_eq_ok_iff, hstring, Option.some.injEq, exists_eq_left', NamesTyped]
      constructor
      · rintro ⟨channel, name, hname, -⟩
        exact ⟨name, hname⟩
      · rintro ⟨name, hname⟩
        exact ⟨_, name, hname, rfl⟩
    | callMethod =>
      simp only [Except.bind_eq_ok_iff, hstring, Option.some.injEq, exists_eq_left', NamesTyped]
      constructor
      · rintro ⟨channel, name, hname, opname, hopname, -⟩
        exact ⟨⟨name, hname⟩, opname, hopname⟩
      · rintro ⟨⟨name, hname⟩, opname, hopname⟩
        exact ⟨_, name, hname, opname, hopname, rfl⟩
    | unknown code => simp [NamesTyped]

/-- `operator std::string` returns exactly when the headers of the log line are there. -/
theorem Packet.describe_ok {p : Packet} {hs : List Value} (h : p.headers = some hs)
    (ht : HeadersTyped hs p.itype p.ptype) : ∃ text, p.describe = .ok text := by
  obtain ⟨⟨txId, htx⟩, hrest⟩ := ht
  have htxId : p.getTxId = .ok txId := by
    rw [getTxId_eq, stringHeader_eq_ok_iff]
    exact ⟨hs, h, htx⟩
  unfold describe
  cases hp : p.ptype with
  | connect | disconnect | respond => simp [htxId]
  | subscribe | unsubscribe | execute =>
    simp only [hp] at hrest
    obtain ⟨i, hi, -⟩ := hrest
    simp [htxId, hi]
  | respondExecute =>
    simp only [hp] at hrest
    obtain ⟨⟨seq, hseq⟩, fin, hfin⟩ := hrest
    have hseq' : p.uintHeader 1 = .ok seq := uintHeader_eq_ok_iff.mpr ⟨hs, h, hseq⟩
    have hfin' : p.boolHeader 2 = .ok fin := boolHeader_eq_ok_iff.mpr ⟨hs, h, hfin⟩
    simp [htxId, hseq', hfin']
  | unknown code => exact ⟨"", rfl⟩

namespace Broker

/-- The handling of a packet returns exactly when the headers that its type reads are there. -/
theorem handle_ok_iff (b : Broker) (socket : SocketName) (pkt : Packet) :
    (∃ r, b.handle socket pkt = .ok r) ↔
      ∃ hs, pkt.headers = some hs ∧ HeadersTyped hs pkt.itype pkt.ptype := by
  constructor
  · rintro ⟨r, hr⟩
    obtain ⟨txId, htx, hr'⟩ := Except.bind_eq_ok_iff.mp hr
    obtain ⟨text, htext, -⟩ := Except.bind_eq_ok_iff.mp hr'
    rw [Packet.getTxId_eq, Packet.stringHeader_eq_ok_iff] at htx
    obtain ⟨hs, h, htx⟩ := htx
    refine ⟨hs, h, ⟨txId, htx⟩, ?_⟩
    cases handles_of_handle hr with
    | connect hp => simp [hp]
    | disconnect hp => simp [hp]
    | subscribe hp _ hch | unsubscribe hp _ hch | execute hp _ hch =>
      simp only [hp]
      exact (Packet.getChannel_ok_iff h).mp ⟨_, hch⟩
    | @respondExecute _ fin hp _ hfin =>
      simp only [hp]
      obtain ⟨hs', h', hfin⟩ := Packet.boolHeader_eq_ok_iff.mp hfin
      obtain rfl := Option.some.inj (h.symm.trans h')
      refine ⟨?_, fin, hfin⟩
      -- The sequence number is read for the log line only.
      simp only [Packet.describe, hp] at htext
      obtain ⟨_, -, hlog⟩ := Except.bind_eq_ok_iff.mp htext
      obtain ⟨seq, hseq, -⟩ := Except.bind_eq_ok_iff.mp hlog
      obtain ⟨hs', h', hseq⟩ := Packet.uintHeader_eq_ok_iff.mp hseq
      obtain rfl := Option.some.inj (h.symm.trans h')
      exact ⟨seq, hseq⟩
    | ignored hp =>
      rcases hp with hp | ⟨code, hp⟩ <;> simp [hp]
  · rintro ⟨hs, h, ht⟩
    obtain ⟨text, htext⟩ := Packet.describe_ok h ht
    obtain ⟨⟨txId, htx⟩, hrest⟩ := ht
    have htxId : pkt.getTxId = .ok txId := by
      rw [Packet.getTxId_eq, Packet.stringHeader_eq_ok_iff]
      exact ⟨hs, h, htx⟩
    unfold handle
    rw [htxId, htext]
    cases hp : pkt.ptype with
    | connect | disconnect | respond => exact ⟨_, rfl⟩
    | unknown code => exact ⟨_, rfl⟩
    | subscribe | unsubscribe | execute =>
      simp only [hp] at hrest
      obtain ⟨channel, hch⟩ := (Packet.getChannel_ok_iff h).mpr hrest
      exact ⟨_, by simp [hch]; rfl⟩
    | respondExecute =>
      simp only [hp] at hrest
      obtain ⟨-, fin, hfin⟩ := hrest
      have hfin' : pkt.boolHeader 2 = .ok fin := Packet.boolHeader_eq_ok_iff.mpr ⟨hs, h, hfin⟩
      exact ⟨_, by simp [hfin']; rfl⟩

/-- A packet of `socket` ends or takes over the transaction `t`: it answers it for good, or it is an
`execute` on an owned channel with the same id. -/
def Closes (b : Broker) (pkt : Packet) (t : TxId) : Prop :=
  pkt.getTxId = .ok t ∧
    ((pkt.ptype = .respondExecute ∧ pkt.boolHeader 2 = .ok true) ∨
      (pkt.ptype = .execute ∧
        ∃ channel, pkt.getChannel = .ok channel ∧ (b.subscriptions.lookup channel).isSome))

/-- The entries of the sockets other than `socket` are the same in both tables, but for the
transactions that `pkt` closes. -/
structure Isolates (b b' : Broker) (socket : SocketName) (pkt : Packet) : Prop where
  subscriptions : ∀ ch o, o ≠ socket →
    (b'.subscriptions.lookup ch = some o ↔ b.subscriptions.lookup ch = some o)
  transactions : ∀ t o, o ≠ socket → b'.transactions.lookup t = some o →
    b.transactions.lookup t = some o
  kept : ∀ t o, o ≠ socket → b.transactions.lookup t = some o →
    b'.transactions.lookup t = some o ∨ b.Closes pkt t

/-- A handled packet leaves the entries of the other sockets alone. -/
theorem Handles.isolates {b : Broker} {socket : SocketName} {pkt : Packet}
    {r : Broker × Option Send} (h : Handles b socket pkt r) : Isolates b r.1 socket pkt := by
  cases h with
  | connect => exact ⟨fun _ _ _ => .rfl, fun _ _ _ h => h, fun _ _ _ h => .inl h⟩
  | ignored => exact ⟨fun _ _ _ => .rfl, fun _ _ _ h => h, fun _ _ _ h => .inl h⟩
  | @disconnect txId =>
    refine ⟨fun ch o ho => ?_, fun _ _ _ h => h, fun _ _ _ h => .inl h⟩
    rw [subscriptions_onDisconnect, and_iff_left ho]
  | @subscribe txId channel =>
    refine ⟨fun ch o ho => ?_, fun t o _ h => ?_, fun t o _ h => .inl ?_⟩
    · -- A new entry has the sender's name, and the old ones stay.
      rw [subscriptions_onSubscribe]
      constructor
      · intro hnew
        rcases Option.or_eq_some_iff.mp hnew with hold | ⟨-, hmine⟩
        · exact hold
        · split_ifs at hmine
          exact absurd (Option.some.inj hmine).symm ho
      · intro hold
        rw [hold]
        rfl
    · simpa using h
    · simpa using h
  | @unsubscribe txId channel =>
    refine ⟨fun ch o ho => ?_, fun t o _ h => ?_, fun t o _ h => .inl ?_⟩
    · rw [subscriptions_onUnsubscribe]
      split_ifs with hmine
      · rw [hmine.2]
        simp [Ne.symm ho]
      · rfl
    · simpa using h
    · simpa using h
  | @execute txId channel hp htx hch =>
    refine ⟨fun ch o _ => ?_, fun t o ho h => ?_, fun t o ho h => ?_⟩
    · rw [subscriptions_onExecute]
    · rw [transactions_onExecute] at h
      split_ifs at h
      · exact absurd (Option.some.inj h).symm ho
      · exact h
    · rw [transactions_onExecute]
      split_ifs with hnew
      · obtain ⟨rfl, hsome⟩ := hnew
        exact .inr ⟨htx, .inr ⟨hp, channel, hch, hsome⟩⟩
      · exact .inl h
  | @respondExecute txId finish hp htx hfin =>
    refine ⟨fun ch o _ => ?_, fun t o ho h => ?_, fun t o ho h => ?_⟩
    · rw [subscriptions_onRespondExecute]
    · rw [transactions_onRespondExecute] at h
      split_ifs at h
      exact h
    · rw [transactions_onRespondExecute]
      split_ifs with hend
      · obtain ⟨rfl, rfl⟩ := hend
        exact .inr ⟨htx, .inl ⟨hp, hfin⟩⟩
      · exact .inl h

/-! ## The iteration on the bytes of a message -/

/-- One iteration of the loop, from the bytes that `socket` has received. -/
def onMessage (fromCbor : List UInt8 → Except Fault Json) (b : Broker) (socket : SocketName)
    (msg : List UInt8) : Except Fault (Broker × Option Send) := do
  let pkt ← loadPacket fromCbor msg true
  b.handle socket pkt

/-- The bytes are a packet with everything that the broker reads of one. -/
def WellFormed (fromCbor : List UInt8 → Except Fault Json) (msg : List UInt8) : Prop :=
  ∃ ptype itype header hs, Framed msg ptype itype header ∧
    decode fromCbor header = .ok (.array hs) ∧ HeadersTyped hs itype ptype

/-- The switch reads the headers only, so the broker handles the packet whose body it has skipped
as it would handle the whole one. -/
theorem handle_body (b : Broker) (socket : SocketName) (pkt : Packet)
    (body : Option (List (String × Value))) :
    b.handle socket { pkt with body } = b.handle socket pkt := rfl

/-- The iteration returns exactly on well-formed bytes. -/
theorem onMessage_ok_iff (fromCbor : List UInt8 → Except Fault Json) (b : Broker)
    (socket : SocketName) (msg : List UInt8) :
    (∃ r, b.onMessage fromCbor socket msg = .ok r) ↔ WellFormed fromCbor msg := by
  constructor
  · rintro ⟨r, hr⟩
    obtain ⟨pkt, hload, hhandle⟩ := Except.bind_eq_ok_iff.mp hr
    obtain ⟨header, v, hframed, hv, hhs, -⟩ := loadPacket_eq_ok_iff.mp hload
    obtain ⟨hs, hs_eq, htyped⟩ := (handle_ok_iff b socket pkt).mp ⟨r, hhandle⟩
    have hv' : v = .array hs := by
      rw [hs_eq] at hhs
      cases v <;> simp [Value.asArray] at hhs
      rw [hhs]
    exact ⟨pkt.ptype, pkt.itype, header, hs, hframed, hv' ▸ hv, htyped⟩
  · rintro ⟨ptype, itype, header, hs, hframed, hv, htyped⟩
    have hload : loadPacket fromCbor msg true = .ok ⟨ptype, itype, some hs, none⟩ :=
      loadPacket_eq_ok_iff.mpr ⟨header, .array hs, hframed, hv, rfl, rfl⟩
    obtain ⟨r, hr⟩ := (handle_ok_iff b socket ⟨ptype, itype, some hs, none⟩).mpr
      ⟨hs, rfl, htyped⟩
    exact ⟨r, Except.bind_eq_ok_iff.mpr ⟨_, hload, hr⟩⟩

/-- On well-formed bytes, from any client and in any state, the iteration returns without a read
outside the bytes, and the other clients keep their subscriptions and their transactions, but for
the transactions that the packet itself closes. -/
theorem onMessage_isolates (fromCbor : List UInt8 → Except Fault Json) (b : Broker)
    (socket : SocketName) (msg : List UInt8) (h : WellFormed fromCbor msg) :
    ∃ pkt b' send, loadPacket fromCbor msg true = .ok pkt ∧
      b.onMessage fromCbor socket msg = .ok (b', send) ∧ Isolates b b' socket pkt := by
  obtain ⟨⟨b', send⟩, hr⟩ := (onMessage_ok_iff fromCbor b socket msg).mpr h
  obtain ⟨pkt, hload, hhandle⟩ := Except.bind_eq_ok_iff.mp hr
  exact ⟨pkt, b', send, hload, hr, (handles_of_handle hhandle).isolates⟩

/-- The bytes of a finishing response to the transaction `t`. -/
def finishMessage : List UInt8 :=
  [0x11, 0x05, 0x00, 0x83, 0x61, 0x74, 0x00, 0xF5, 0x00, 0x00, 0x00, 0x00]

/-- `from_cbor` on the headers of `finishMessage`, and an error elsewhere. -/
def finishFromCbor (bytes : List UInt8) : Except Fault Json :=
  if bytes = [0x83, 0x61, 0x74, 0x00, 0xF5] then
    .ok (.array [.string "t", .numberUnsigned 0, .boolean true])
  else
    .error (.exception "parse error")

theorem onMessage_isolates_finishMessage :
    WellFormed finishFromCbor finishMessage ∧
      ∃ pkt b' send, loadPacket finishFromCbor finishMessage true = .ok pkt ∧
        Broker.empty.onMessage finishFromCbor "0" finishMessage = .ok (b', send) ∧
        Isolates .empty b' "0" pkt := by
  have h : WellFormed finishFromCbor finishMessage := by
    have hframed : Framed finishMessage .respondExecute none [0x83, 0x61, 0x74, 0x00, 0xF5] :=
      @Framed.plain 0x11 [0x05, 0x00] [0x83, 0x61, 0x74, 0x00, 0xF5] [0x00, 0x00, 0x00, 0x00]
        rfl rfl rfl
    exact ⟨_, _, _, [.string "t", .uint 0, .bool true], hframed, rfl, ⟨"t", rfl⟩, ⟨0, rfl⟩, true,
      rfl⟩
  exact ⟨h, onMessage_isolates finishFromCbor .empty "0" finishMessage h⟩

end Broker

namespace Net

/-- A client calls a function of the peer `0`, and the peer has not answered yet. -/
def openRun : List NetAct :=
  [.accept "0", .send "0" (.subscribe "s" (.callFunction "f")), .recv "0", .accept "1",
    .send "1" (.execute "t" (.callFunction "f" none)), .recv "1"]

/-- In the state after `openRun`, the finishing response of the peer `0` ends the transaction of the
client `1`, and an empty message is read outside its bytes. -/
theorem finishMessage_not_isolated :
    ∃ n, Reach step .empty n ∧ n.broker.transactions.lookup "t" = some "1" ∧
      (∃ b' send, n.broker.onMessage Broker.finishFromCbor "0" Broker.finishMessage =
        .ok (b', send) ∧ b'.transactions.lookup "t" = none) ∧
      n.broker.onMessage Broker.finishFromCbor "0" [] = .error .outOfBounds := by
  have hend : (run step .empty openRun).map
      (fun n => n.broker.transactions.lookup "t") = some (some "1") := by decide
  obtain ⟨n, hn, ht⟩ := Option.map_eq_some_iff.mp hend
  refine ⟨n, reach_of_run hn, ht, ⟨_, _, rfl, ?_⟩, rfl⟩
  have hfin := Broker.transactions_onRespondExecute n.broker "t" true "t"
  rwa [if_pos ⟨rfl, rfl⟩] at hfin

end Net

end Ailoy
