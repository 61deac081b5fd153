import Ailoy.Broker.Network
import Ailoy.Lib.History
import Ailoy.Vm.Offers

/-!
# Clients, broker, and VM

The broker of `Net` with one VM, which is the peer of the socket `v`, and clients as the other
peers. A client sends `connect`, `disconnect`, and `execute` packets and reads its mailbox at any
time. The VM computes a step of `vm_start` at once and then sends the packets of the step one after
the other, so the other parties may act between two of its sends. Only while it imports modules does
the VM look at the result of a send.
-/

namespace Ailoy

open Transition

/-- What a client sends. -/
inductive ClientMsg
  | connect (txId : TxId)
  | disconnect (txId : TxId)
  | execute (txId : TxId) (r : Request)

/-- The packet of a client's message. -/
def ClientMsg.packet : ClientMsg → Packet
  | .connect txId => .connect txId
  | .disconnect txId => .disconnect txId
  | .execute txId r => .execute txId r

/-- The broker with its peers, the VM, and the packets of the VM's step that are still to be sent.
-/
structure Sys (σ ω : Type) where
  net : Net
  loop : Loop σ ω
  out : List Packet

/-- One step of a client, of the broker, or of the VM. -/
inductive SysAct (σ ω : Type)
  /-- The broker accepts a client's connection, as the socket `s`. -/
  | accept (s : SocketName)
  /-- The client of `s` sends a message. -/
  | client (s : SocketName) (m : ClientMsg)
  /-- The client of `s` reads its mailbox. -/
  | take (s : SocketName)
  /-- The broker's loop serves the signal `(s, "recv")`. -/
  | broker (s : SocketName)
  /-- The VM goes on without a packet. -/
  | vm (a : LoopAct σ ω)
  /-- The VM reads its mailbox and handles the packet. -/
  | vmRecv
  /-- The VM sends the next packet of its step. -/
  | vmSend

/-- What happens in a run. -/
inductive SysEvent (σ ω : Type)
  /-- The client of `s` has sent an `execute` packet. -/
  | requested (s : SocketName) (txId : TxId) (r : Request)
  /-- The client of `s` has taken a packet from its mailbox. -/
  | took (s : SocketName) (pkt : Packet)
  /-- The VM has handled a packet, which changed its state from `before` to `after`. -/
  | handled (pkt : Packet) (before after : Vm σ ω)
  /-- The VM has made a packet to send. -/
  | produced (pkt : Packet)

namespace Sys

variable {σ ω : Type}

/-- The system when the VM has connected as the socket `v`. -/
def start (v : SocketName) (env : ω) : Sys σ ω :=
  ⟨{ Net.empty with broker := Broker.empty.accept v, attached := {v} }, .start env, []⟩

/-- The VM reads its mailbox, which has a packet, and handles it. -/
def vmRecv (v : SocketName) (uuid : ℕ → TxId) (s : Sys σ ω) : Option (Sys σ ω) :=
  match s.out, s.net.take v with
  | [], (some pkt, net) =>
    (s.loop.step uuid (.recv pkt)).map fun (loop, pkts) => ⟨net, loop, pkts⟩
  | _, _ => none

/-- The VM sends the next packet of its step. A send that fails is an exception while modules are
imported, and is ignored otherwise. -/
def vmSend (v : SocketName) (s : Sys σ ω) : Option (Sys σ ω) :=
  match s.out with
  | [] => none
  | pkt :: rest =>
    match s.net.send v pkt, s.loop.activity with
    | (net, true), _ => some { s with net, out := rest }
    | (_, false), .importing =>
      some { s with
        loop := { s.loop with
          activity := .left (.exception "Initialization packet send failed") }
        out := [] }
    | (_, false), _ => some { s with out := rest }

/-- One step of the system. -/
def step (v : SocketName) (uuid : ℕ → TxId) (s : Sys σ ω) : SysAct σ ω → Option (Sys σ ω)
  | .accept c => if c = v then none else (s.net.accept c).map fun net => { s with net }
  | .client c m => if c = v then none else some { s with net := (s.net.send c m.packet).1 }
  | .take c => if c = v then none else some { s with net := (s.net.take c).2 }
  | .broker c => (s.net.recv c).map fun net => { s with net }
  | .vm a =>
    match s.out, a with
    | _, .recv _ => none
    | [], a => (s.loop.step uuid a).map fun (loop, pkts) => { s with loop, out := pkts }
    | _, _ => none
  | .vmRecv => s.vmRecv v uuid
  | .vmSend => s.vmSend v

/-- The events of a step. -/
def emits (v : SocketName) (uuid : ℕ → TxId) (s : Sys σ ω) : SysAct σ ω → List (SysEvent σ ω)
  | .accept _ | .broker _ | .vmSend => []
  | .client c m =>
    match m, (s.net.send c m.packet).2 with
    | .execute txId r, true => [.requested c txId r]
    | _, _ => []
  | .take c =>
    match (s.net.take c).1 with
    | none => []
    | some pkt => [.took c pkt]
  | .vm a =>
    match s.loop.step uuid a with
    | none => []
    | some (_, pkts) => pkts.map .produced
  | .vmRecv =>
    match (s.net.take v).1 with
    | none => []
    | some pkt =>
      match s.loop.step uuid (.recv pkt) with
      | none => []
      | some (loop, pkts) => .handled pkt s.loop.vm loop.vm :: pkts.map .produced

/-- Runs of the system with their histories. -/
abbrev recordedStep (v : SocketName) (uuid : ℕ → TxId) :
    Recorded (Sys σ ω) (SysEvent σ ω) → SysAct σ ω → Option (Recorded (Sys σ ω) (SysEvent σ ω)) :=
  record (step v uuid) (emits v uuid)

/-- The start of the system, with no history. -/
def recordedStart (v : SocketName) (env : ω) : Recorded (Sys σ ω) (SysEvent σ ω) :=
  ⟨start v env, []⟩

/-! ## Conditions on the steps -/

/-- What the broker or the VM sends in a step, with the mailbox that it is to be put in. -/
def sends (v : SocketName) (s : Sys σ ω) : SysAct σ ω → Option (Packet × List Packet)
  | .broker c =>
    if c ∈ s.net.broker.sockets then
      match s.net.inbox c with
      | [] => none
      | msg :: _ =>
        match s.net.broker.handle c msg with
        | .ok (_, some (.reply pkt)) => some (pkt, s.net.mailbox c)
        | .ok (_, some (.forward target)) => some (msg, s.net.mailbox target)
        | _ => none
    else none
  | .vmSend =>
    match s.out with
    | [] => none
    | pkt :: _ => some (pkt, s.net.inbox v)
  | _ => none

/-- The request that the VM handles in a step. -/
def nextRequest (v : SocketName) (s : Sys σ ω) : SysAct σ ω → Option Request
  | .vmRecv =>
    match s.loop.activity, s.net.mailbox v with
    | .listening, pkt :: _ => pkt.request?
    | _, _ => none
  | _ => none

/-- No send of the broker or the VM finds its mailbox full. -/
def Roomy (v : SocketName) (s : Sys σ ω) (a : SysAct σ ω) : Prop :=
  ∀ x ∈ s.sends v a, x.2.length < Mailbox.limit

/-- No send of an `execute` or `respond_execute` packet finds its mailbox full. -/
def Lossless (v : SocketName) (s : Sys σ ω) (a : SysAct σ ω) : Prop :=
  ∀ x ∈ s.sends v a, x.1.ptype = .execute ∨ x.1.ptype = .respondExecute →
    x.2.length < Mailbox.limit

/-- A component is not defined while one of its name exists. -/
def Singular (v : SocketName) (s : Sys σ ω) (a : SysAct σ ω) : Prop :=
  ∀ r ∈ s.nextRequest v a, s.loop.vm.Singular r = true

/-- The methods of a defined component have names without the separator of channels. -/
def PlainMethods (v : SocketName) (s : Sys σ ω) (a : SysAct σ ω) : Prop :=
  ∀ r ∈ s.nextRequest v a, s.loop.vm.PlainMethods r = true

/-- The code of the modules that the step runs returns. -/
def Returns (v : SocketName) (s : Sys σ ω) (a : SysAct σ ω) : Prop :=
  (∀ r ∈ s.nextRequest v a, s.loop.vm.Returns r = true) ∧
    (match a, s.loop.activity with
      | .vm .advance, .calling c => Vm.returned (c.code.step c.state)
      | _, _ => true) = true

/-- A subscription of an import does not find the mailbox full. -/
def Imports (v : SocketName) (s : Sys σ ω) (a : SysAct σ ω) : Prop :=
  (match a, s.loop.activity with
    | .vmSend, .importing => decide ((s.net.inbox v).length < Mailbox.limit)
    | _, _ => true) = true

/-- The step is not the stop of the VM. -/
def Running (a : SysAct σ ω) : Prop :=
  (match a with
    | .vm .stop => false
    | _ => true) = true

/-- The step neither stops the VM nor makes it leave `vm_start`. -/
def Healthy (v : SocketName) (s : Sys σ ω) (a : SysAct σ ω) : Prop :=
  s.Returns v a ∧ s.Imports v a ∧ Running a

/-- An `execute` that a client sends has an id that no client has used before. -/
def Fresh (h : List (SysEvent σ ω)) (a : SysAct σ ω) : Prop :=
  (match a with
    | .client _ (.execute t _) => h.all fun
      | .requested _ t' _ => t' ≠ t
      | _ => true
    | _ => true) = true

instance (v : SocketName) (s : Sys σ ω) (a : SysAct σ ω) : Decidable (s.Roomy v a) :=
  Option.decidableForallMem _

instance (v : SocketName) (s : Sys σ ω) (a : SysAct σ ω) : Decidable (s.Lossless v a) :=
  Option.decidableForallMem _

instance (v : SocketName) (s : Sys σ ω) (a : SysAct σ ω) : Decidable (s.Singular v a) :=
  Option.decidableForallMem _

instance (v : SocketName) (s : Sys σ ω) (a : SysAct σ ω) : Decidable (s.PlainMethods v a) :=
  Option.decidableForallMem _

instance (v : SocketName) (s : Sys σ ω) (a : SysAct σ ω) : Decidable (s.Healthy v a) :=
  inferInstanceAs (Decidable (((∀ r ∈ _, _) ∧ _ = _) ∧ _ = _ ∧ _ = _))

instance (h : List (SysEvent σ ω)) (a : SysAct σ ω) : Decidable (Fresh h a) :=
  inferInstanceAs (Decidable (_ = _))

end Sys

end Ailoy
