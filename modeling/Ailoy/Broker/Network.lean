import Ailoy.Broker.Handle
import Ailoy.Core.Mailbox
import Ailoy.Lib.Transition

/-!
# The broker among its peers

The broker with the mailboxes of its sockets and of their peers. Each pair of attached sockets
carries two queues: `inbox s` is the mailbox of the broker's socket `s`, which the peer fills, and
`mailbox s` the one of the peer's socket, which the broker fills. The peers may do anything: send
any packet and read at any time. The broker's thread is one loop, so a `recv` of a socket is one
iteration of it. The monitor's signals only say which socket to serve next, and here any socket may
be next.
-/

namespace Ailoy

/-- The broker's tables, the sockets that have been attached to a peer, and the mailboxes. -/
structure Net where
  broker : Broker
  attached : Finset SocketName
  inbox : SocketName → List Packet
  mailbox : SocketName → List Packet

/-- One step of a peer or of the broker's loop. -/
inductive NetAct
  /-- The broker accepts a connection, as the socket `s`. -/
  | accept (s : SocketName)
  /-- The peer of `s` sends a packet. -/
  | send (s : SocketName) (pkt : Packet)
  /-- The loop serves the signal `(s, "recv")`. -/
  | recv (s : SocketName)
  /-- The peer of `s` reads its mailbox. -/
  | take (s : SocketName)

namespace Net

/-- The broker before its first connection. -/
def empty : Net := ⟨.empty, ∅, fun _ => [], fun _ => []⟩

/-- The `accept` case of the loop. The new socket's name is none of the registered ones. -/
def accept (n : Net) (s : SocketName) : Option Net :=
  if s ∈ n.broker.sockets then none
  else some { n with broker := n.broker.accept s, attached := insert s n.attached }

/-- `socket_t::send` of the peer of `s`, with its result. A socket that is not attached, or whose
peer's mailbox is full, sends nothing. -/
def send (n : Net) (s : SocketName) (pkt : Packet) : Net × Bool :=
  if s ∈ n.attached then
    match Mailbox.set (n.inbox s) pkt with
    | none => (n, false)
    | some q => ({ n with inbox := Function.update n.inbox s q }, true)
  else (n, false)

/-- `socket_t::send` of the broker's socket `s`, with its result. -/
def deliver (n : Net) (s : SocketName) (pkt : Packet) : Net × Bool :=
  match Mailbox.set (n.mailbox s) pkt with
  | none => (n, false)
  | some q => ({ n with mailbox := Function.update n.mailbox s q }, true)

/-- The send that a case of the switch asks for. The loop ignores its result. -/
def dispatch (n : Net) (s : SocketName) (msg : Packet) : Option Send → Net
  | none => n
  | some (.reply pkt) => (n.deliver s pkt).1
  | some (.forward target) => (n.deliver target msg).1

/-- The `recv` case of the loop. A socket that is not registered, or whose mailbox is empty, is
passed over. There is no state after a fault: it leaves `broker_start`. -/
def recv (n : Net) (s : SocketName) : Option Net :=
  if s ∈ n.broker.sockets then
    match Mailbox.get (n.inbox s) with
    | none => some n
    | some (msg, rest) =>
      match n.broker.handle s msg with
      | .error _ => none
      | .ok (broker, send) =>
        some (dispatch { n with broker, inbox := Function.update n.inbox s rest } s msg send)
  else some n

/-- `socket_t::recv` of the peer of `s`. -/
def take (n : Net) (s : SocketName) : Option Packet × Net :=
  match Mailbox.get (n.mailbox s) with
  | none => (none, n)
  | some (pkt, rest) => (some pkt, { n with mailbox := Function.update n.mailbox s rest })

/-- One step of the network. -/
def step (n : Net) : NetAct → Option Net
  | .accept s => n.accept s
  | .send s pkt => some (n.send s pkt).1
  | .recv s => n.recv s
  | .take s => some (n.take s).2

section Frames

variable (n : Net) (s : SocketName) (pkt msg : Packet) (o : Option Send)

@[simp] theorem deliver_broker : (n.deliver s pkt).1.broker = n.broker := by
  unfold deliver
  split <;> rfl

@[simp] theorem deliver_attached : (n.deliver s pkt).1.attached = n.attached := by
  unfold deliver
  split <;> rfl

@[simp] theorem deliver_inbox : (n.deliver s pkt).1.inbox = n.inbox := by
  unfold deliver
  split <;> rfl

@[simp] theorem dispatch_broker : (n.dispatch s msg o).broker = n.broker := by
  unfold dispatch
  split <;> simp

@[simp] theorem send_broker : (n.send s pkt).1.broker = n.broker := by
  unfold send
  split_ifs
  · split <;> rfl
  · rfl

@[simp] theorem take_broker : (n.take s).2.broker = n.broker := by
  unfold take
  split <;> rfl

end Frames

/-- What an iteration of the loop can do: pass the socket over, or take the first message of a
registered socket and handle it. -/
theorem recv_cases {n n' : Net} {s : SocketName} (h : n.recv s = some n') :
    (n' = n ∧ (s ∉ n.broker.sockets ∨ n.inbox s = [])) ∨
      ∃ msg rest broker send, s ∈ n.broker.sockets ∧ n.inbox s = msg :: rest ∧
        n.broker.handle s msg = .ok (broker, send) ∧
        n' = dispatch { n with broker, inbox := Function.update n.inbox s rest } s msg send := by
  unfold recv at h
  split_ifs at h with hs
  · cases hq : n.inbox s with
    | nil =>
      simp only [hq, Mailbox.get] at h
      exact .inl ⟨(Option.some.inj h).symm, .inr rfl⟩
    | cons msg rest =>
      simp only [hq, Mailbox.get] at h
      cases hh : n.broker.handle s msg with
      | error f => simp [hh] at h
      | ok r =>
        obtain ⟨broker, send⟩ := r
        simp only [hh] at h
        exact .inr ⟨msg, rest, broker, send, hs, rfl, hh, (Option.some.inj h).symm⟩
  · exact .inl ⟨(Option.some.inj h).symm, .inl hs⟩

/-- What a step does to the tables: nothing, an accept, or the handling of the first message of a
registered socket. -/
theorem step_broker {n n' : Net} {a : NetAct} (h : n.step a = some n') :
    n'.broker = n.broker ∨
      (∃ s, a = .accept s ∧ s ∉ n.broker.sockets ∧ n'.broker = n.broker.accept s) ∨
      ∃ s msg rest send, a = .recv s ∧ s ∈ n.broker.sockets ∧ n.inbox s = msg :: rest ∧
        Broker.Handles n.broker s msg (n'.broker, send) := by
  cases a with
  | accept s =>
    simp only [step, accept] at h
    split_ifs at h with hs
    obtain rfl := Option.some.inj h
    exact .inr (.inl ⟨s, rfl, hs, rfl⟩)
  | send s pkt =>
    obtain rfl := Option.some.inj h
    exact .inl (send_broker n s pkt)
  | recv s =>
    rcases recv_cases h with ⟨rfl, -⟩ | ⟨msg, rest, broker, send, hs, hq, hh, rfl⟩
    · exact .inl rfl
    · refine .inr (.inr ⟨s, msg, rest, send, rfl, hs, hq, ?_⟩)
      simpa using Broker.handles_of_handle hh
  | take s =>
    obtain rfl := Option.some.inj h
    exact .inl (take_broker n s)

end Net

end Ailoy
