import Ailoy.Core.Packet
import Ailoy.Core.ValueCodec

/-!
# Loading packets

`load_packet` of `core/src/packet.cpp`. A packet is one byte for its type, one for its instruction
type where the packet type has one, two bytes with the size of the encoded headers, the headers, and
the same with four bytes for the body. `load_packet` takes every length from the bytes and checks
none of them.
-/

namespace Ailoy

/-- The packet type of a byte. -/
def PacketType.ofByte (code : UInt8) : PacketType :=
  if code = 0 then .connect
  else if code = 1 then .disconnect
  else if code = 2 then .subscribe
  else if code = 3 then .unsubscribe
  else if code = 4 then .execute
  else if code = 16 then .respond
  else if code = 17 then .respondExecute
  else .unknown code

/-- The instruction type of a byte. -/
def InstructionType.ofByte (code : UInt8) : InstructionType :=
  if code = 0 then .callFunction
  else if code = 1 then .defineComponent
  else if code = 2 then .deleteComponent
  else if code = 3 then .callMethod
  else .unknown code

/-- The packet types behind whose byte an instruction type follows. -/
def PacketType.hasInstruction : PacketType → Bool
  | .subscribe | .unsubscribe | .execute => true
  | _ => false

/-- `->as<array_t>()`, a null pointer for another type. -/
def Value.asArray : Value → Option (List Value)
  | .array vs => some vs
  | _ => none

/-- `->as<map_t>()`, a null pointer for another type. -/
def Value.asMap : Value → Option (List (String × Value))
  | .map kvs => some kvs
  | _ => none

/-- The optional instruction byte of `load_packet`. -/
def loadInstructionType (ptype : PacketType) (it : List UInt8) :
    Except Fault (Option InstructionType × List UInt8) :=
  if ptype.hasInstruction then do
    let (code, it) ← readUint 1 it
    return (some (.ofByte (UInt8.ofNat code)), it)
  else
    return (none, it)

/-- The body of `load_packet`. A size of zero leaves it null. -/
def loadBody (fromCbor : List UInt8 → Except Fault Json) (it : List UInt8) :
    Except Fault (Option (List (String × Value))) := do
  let (size, it) ← readUint 4 it
  if size > 0 then do
    let (bytes, _) ← readBytes size it
    let body ← decode fromCbor bytes
    return body.asMap
  else
    return none

/-- `load_packet`. -/
def loadPacket (fromCbor : List UInt8 → Except Fault Json) (bytes : List UInt8)
    (skipBody : Bool) : Except Fault Packet := do
  let (code, it) ← readUint 1 bytes
  let ptype := PacketType.ofByte (UInt8.ofNat code)
  let (itype, it) ← loadInstructionType ptype it
  let (size, it) ← readUint 2 it
  let (headerBytes, it) ← readBytes size it
  let headers ← decode fromCbor headerBytes
  if skipBody then
    return ⟨ptype, itype, headers.asArray, none⟩
  else do
    let body ← loadBody fromCbor it
    return ⟨ptype, itype, headers.asArray, body⟩

end Ailoy
