import Ailoy.Core.Value
import Ailoy.Lib.Except

/-!
# Packets

`packet_t` of `core/include/packet.hpp`: its header accessors `get_tx_id` and `get_channel`, its
description for the log, and the packets that the `dump_packet` templates build. A template takes
the routing names of its instruction from its arguments, so the arguments of the `subscribe`,
`unsubscribe`, and `execute` templates are an `Instruction` or a `Request` here, with one
constructor for each instruction type.
-/

namespace Ailoy

/-- `tx_id_t`. -/
abbrev TxId := String

/-- `channel_t`. -/
abbrev Channel := String

/-- `packet_type`, with the bytes that name none of its members. -/
inductive PacketType
  | connect
  | disconnect
  | subscribe
  | unsubscribe
  | execute
  | respond
  | respondExecute
  | unknown (code : UInt8)
  deriving DecidableEq

/-- `magic_enum::enum_name` of a packet type. -/
def PacketType.enumName : PacketType → String
  | .connect => "connect"
  | .disconnect => "disconnect"
  | .subscribe => "subscribe"
  | .unsubscribe => "unsubscribe"
  | .execute => "execute"
  | .respond => "respond"
  | .respondExecute => "respond_execute"
  | .unknown _ => ""

/-- `instruction_type`, with the bytes that name none of its members. -/
inductive InstructionType
  | callFunction
  | defineComponent
  | deleteComponent
  | callMethod
  | unknown (code : UInt8)
  deriving DecidableEq

/-- The byte of an instruction type. -/
def InstructionType.code : InstructionType → UInt8
  | .callFunction => 0
  | .defineComponent => 1
  | .deleteComponent => 2
  | .callMethod => 3
  | .unknown code => code

/-- `std::to_string(static_cast<uint8_t>(itype))`. -/
def InstructionType.digits (itype : InstructionType) : String :=
  toString itype.code.toNat

/-- `magic_enum::enum_name` of an instruction type. -/
def InstructionType.enumName : InstructionType → String
  | .callFunction => "call_function"
  | .defineComponent => "define_component"
  | .deleteComponent => "delete_component"
  | .callMethod => "call_method"
  | .unknown _ => ""

/-- `packet_t`. `headers` and `body` are `none` for a null pointer. -/
structure Packet where
  ptype : PacketType
  itype : Option InstructionType
  headers : Option (List Value)
  body : Option (List (String × Value))

namespace Packet

/-- `headers->at(idx)`. -/
def header (p : Packet) (idx : ℕ) : Except Fault Value :=
  match p.headers with
  | none => .error .nullDereference
  | some hs => Value.arrayAt hs idx

/-- `*headers->at<string_t>(idx)`. -/
def stringHeader (p : Packet) (idx : ℕ) : Except Fault String :=
  p.header idx >>= Value.asString

/-- `*headers->at<uint_t>(idx)`. -/
def uintHeader (p : Packet) (idx : ℕ) : Except Fault UInt64 :=
  p.header idx >>= Value.asUint

/-- `*headers->at<bool_t>(idx)`. -/
def boolHeader (p : Packet) (idx : ℕ) : Except Fault Bool :=
  p.header idx >>= Value.asBool

/-- `packet_t::get_tx_id`. Its guard compares an unsigned size with zero and never holds. -/
def getTxId (p : Packet) : Except Fault TxId :=
  match p.headers with
  | none => .error .nullDereference
  | some hs => if hs.length < 0 then .ok "" else p.stringHeader 0

/-- `packet_t::get_channel`. -/
def getChannel (p : Packet) : Except Fault Channel :=
  match p.itype with
  | none => .error (.exception "This type of packet does not have instruction")
  | some itype =>
    match itype with
    | .callFunction | .defineComponent | .deleteComponent => do
      let name ← p.stringHeader 1
      return itype.digits ++ "/" ++ name
    | .callMethod => do
      let name ← p.stringHeader 1
      let opname ← p.stringHeader 2
      return itype.digits ++ "/" ++ name ++ "/" ++ opname
    | .unknown _ => .error (.exception "Cannot hanle instruction type")

/-- `packet_t::operator std::string`, which the broker and the VM log each packet with. -/
def describe (p : Packet) : Except Fault String :=
  match p.ptype with
  | .connect | .disconnect | .respond => do
    let txId ← p.getTxId
    return txId ++ " " ++ p.ptype.enumName
  | .subscribe | .unsubscribe | .execute => do
    let txId ← p.getTxId
    match p.itype with
    | none => .error (.exception "bad optional access")
    | some itype => return txId ++ " " ++ p.ptype.enumName ++ " " ++ itype.enumName
  | .respondExecute => do
    let txId ← p.getTxId
    let seq ← p.uintHeader 1
    let fin ← p.boolHeader 2
    return txId ++ " " ++ p.ptype.enumName ++ " idx " ++ toString seq.toNat ++ " fin "
      ++ toString fin.toNat
  | .unknown _ => return ""

/-- The transaction id of an `execute` packet. -/
def executeId (p : Packet) : Option TxId :=
  if p.ptype = .execute then p.getTxId.toOption else none

/-- The packet is a response of the transaction `t`. -/
def Responds (p : Packet) (t : TxId) : Prop :=
  p.ptype = .respondExecute ∧ p.getTxId = .ok t

/-- The packet is a response of the transaction `t` with the finish flag. -/
def Finishes (p : Packet) (t : TxId) : Prop :=
  p.Responds t ∧ p.boolHeader 2 = .ok true

/-- The packet is the `execute` of the transaction `t` or a response of it. -/
def Concerns (p : Packet) (t : TxId) : Prop := p.executeId = some t ∨ p.Responds t

instance (p : Packet) (t : TxId) : Decidable (p.Responds t) :=
  inferInstanceAs (Decidable (_ ∧ _))

instance (p : Packet) (t : TxId) : Decidable (p.Finishes t) :=
  inferInstanceAs (Decidable (_ ∧ _))

instance (p : Packet) (t : TxId) : Decidable (p.Concerns t) :=
  inferInstanceAs (Decidable (_ ∨ _))

end Packet

/-- An instruction with its routing names. -/
inductive Instruction
  | callFunction (opname : String)
  | defineComponent (comptype : String)
  | deleteComponent (compname : String)
  | callMethod (compname opname : String)
  deriving DecidableEq

namespace Instruction

/-- The instruction type of an instruction. -/
def itype : Instruction → InstructionType
  | .callFunction _ => .callFunction
  | .defineComponent _ => .defineComponent
  | .deleteComponent _ => .deleteComponent
  | .callMethod _ _ => .callMethod

/-- The routing names that the templates push behind the transaction id. -/
def names : Instruction → List String
  | .callFunction opname => [opname]
  | .defineComponent comptype => [comptype]
  | .deleteComponent compname => [compname]
  | .callMethod compname opname => [compname, opname]

/-- The channel of an instruction, which `get_channel` computes from its packet. -/
def channel : Instruction → Channel
  | .callFunction opname => InstructionType.callFunction.digits ++ "/" ++ opname
  | .defineComponent comptype => InstructionType.defineComponent.digits ++ "/" ++ comptype
  | .deleteComponent compname => InstructionType.deleteComponent.digits ++ "/" ++ compname
  | .callMethod compname opname =>
    InstructionType.callMethod.digits ++ "/" ++ compname ++ "/" ++ opname

end Instruction

/-- What an `execute` packet asks for. An input of `none` is an argument left out. -/
inductive Request
  | callFunction (opname : String) (input : Option Value)
  | defineComponent (comptype compname : String) (input : Option Value)
  | deleteComponent (compname : String)
  | callMethod (compname opname : String) (input : Option Value)

namespace Request

/-- The instruction of a request. -/
def instruction : Request → Instruction
  | .callFunction opname _ => .callFunction opname
  | .defineComponent comptype _ _ => .defineComponent comptype
  | .deleteComponent compname => .deleteComponent compname
  | .callMethod compname opname _ => .callMethod compname opname

/-- The body that the `execute` template fills in. -/
def body : Request → List (String × Value)
  | .callFunction _ input => [("in", input.getD .null)]
  | .defineComponent _ compname input => [("name", .string compname), ("in", input.getD .null)]
  | .deleteComponent _ => []
  | .callMethod _ _ input => [("in", input.getD .null)]

/-- The input of a request. -/
def input : Request → Value
  | .callFunction _ input => input.getD .null
  | .defineComponent _ _ input => input.getD .null
  | .deleteComponent _ => .null
  | .callMethod _ _ input => input.getD .null

/-- The component that a request names. -/
def compname? : Request → Option String
  | .callFunction _ _ => none
  | .defineComponent _ compname _ => some compname
  | .deleteComponent compname => some compname
  | .callMethod compname _ _ => some compname

end Request

namespace Packet

/-- `dump_packet<packet_type::connect>`. -/
def connect (txId : TxId) : Packet :=
  ⟨.connect, none, some [.string txId, .string "1"], some []⟩

/-- `dump_packet<packet_type::disconnect>`. -/
def disconnect (txId : TxId) : Packet :=
  ⟨.disconnect, none, some [.string txId], some []⟩

/-- The body of a `subscribe` or `unsubscribe` packet: the template for methods fills in a null
input. -/
def subscriptionBody : Instruction → List (String × Value)
  | .callMethod _ _ => [("in", .null)]
  | _ => []

/-- `dump_packet<packet_type::subscribe, itype>`. -/
def subscribe (txId : TxId) (i : Instruction) : Packet :=
  ⟨.subscribe, some i.itype, some (.string txId :: i.names.map .string),
    some (subscriptionBody i)⟩

/-- `dump_packet<packet_type::unsubscribe, itype>`. -/
def unsubscribe (txId : TxId) (i : Instruction) : Packet :=
  ⟨.unsubscribe, some i.itype, some (.string txId :: i.names.map .string),
    some (subscriptionBody i)⟩

/-- `dump_packet<packet_type::execute, itype>`. -/
def execute (txId : TxId) (r : Request) : Packet :=
  ⟨.execute, some r.instruction.itype, some (.string txId :: r.instruction.names.map .string),
    some r.body⟩

/-- `dump_packet<packet_type::respond, true>`. -/
def respond (txId : TxId) : Packet :=
  ⟨.respond, none, some [.string txId], some [("status", .bool true)]⟩

/-- `dump_packet<packet_type::respond, false>`. -/
def respondError (txId : TxId) (reason : String) : Packet :=
  ⟨.respond, none, some [.string txId],
    some [("status", .bool false), ("reason", .string reason)]⟩

/-- `dump_packet<packet_type::respond_execute, true>`. -/
def respondExecute (txId : TxId) (sequence : ℕ) (finish : Bool) (out : Value) : Packet :=
  ⟨.respondExecute, none, some [.string txId, .uint (UInt64.ofNat sequence), .bool finish],
    some [("status", .bool true), ("out", out)]⟩

/-- `dump_packet<packet_type::respond_execute, false>`, which always sets the finish flag. -/
def respondExecuteError (txId : TxId) (sequence : ℕ) (reason : String) : Packet :=
  ⟨.respondExecute, none, some [.string txId, .uint (UInt64.ofNat sequence), .bool true],
    some [("status", .bool false), ("reason", .string reason)]⟩

section Templates

variable (txId : TxId) (i : Instruction) (seq : ℕ) (reason : String)

@[simp] theorem getTxId_respondExecuteError :
    (respondExecuteError txId seq reason).getTxId = .ok txId := rfl

theorem responds_respondExecuteError : (respondExecuteError txId seq reason).Responds txId :=
  ⟨rfl, rfl⟩

/-- `get_channel` of a `subscribe` packet is the channel of its instruction. -/
@[simp] theorem getChannel_subscribe : (subscribe txId i).getChannel = .ok i.channel := by
  cases i <;> rfl

/-- `get_channel` of an `unsubscribe` packet is the channel of its instruction. -/
@[simp] theorem getChannel_unsubscribe : (unsubscribe txId i).getChannel = .ok i.channel := by
  cases i <;> rfl

end Templates

end Packet

end Ailoy
