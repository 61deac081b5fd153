import Ailoy.Core.Mailbox
import Ailoy.Lib.Transition

/-!
# Connecting to the broker

`socket_t::connect` of the clients of one url, and the broker's thread that makes the acceptor, sets
its monitor and accepts (`core/src/inproc_socket.cpp`, `broker/src/broker.cpp`). The threads take
their steps in any order. A client that finds the acceptor registered puts its socket into the
acceptor's mailbox and is done; one that does not waits in a list until no socket for the url is in
it, which `wait_for` finds at any wakeup or at its timeout. `accept` takes a socket from the mailbox
later, and `attach` then sets the three members that `send` asks for, one after the other.
-/

namespace Ailoy

/-- Where a client thread is in the constructor of `broker_client_t`. -/
inductive ClientAt
  | start
  /-- In `wait_for`. -/
  | waiting
  /-- `connect` has returned true. -/
  | connected
  /-- The constructor has returned. -/
  | constructed
  /-- The constructor has thrown. -/
  | failed
  deriving DecidableEq

/-- Where the broker's thread is. -/
inductive BrokerAt (σ : Type*)
  | start
  /-- The acceptor is registered. -/
  | constructed
  /-- In `on_monitor_set`, with the sockets that are left of the range. -/
  | offering (rest : List σ)
  /-- In the loop, before the next signal. -/
  | loop
  /-- In `accept`, before the assignment of `peer_mailbox`. -/
  | setMailbox (c : σ)
  /-- Before the assignment of `peer_name`. -/
  | setName (c : σ)
  /-- Before the assignment of `peer_notify`. -/
  | setNotify (c : σ)
  /-- `accept` has returned. -/
  | returned (c : σ)
  deriving DecidableEq

/-- Which members `attach` has set. -/
structure Attachment where
  peerMailbox : Bool
  peerName : Bool
  peerNotify : Bool
  deriving DecidableEq

/-- All members are set. -/
def Attachment.isAttached (a : Attachment) : Bool := a.peerMailbox && a.peerName && a.peerNotify

/-- The sockets of a url, named by `σ`, and the broker's thread. -/
structure Dial (σ α : Type*) where
  broker : BrokerAt σ
  /-- The wait list `dialer.connections`. -/
  connections : List σ
  /-- The acceptor's mailbox. -/
  mailbox : List σ
  /-- The signals `"accept"` in the monitor. -/
  signals : ℕ
  /-- The sockets that the loop has accepted. -/
  accepted : List σ
  client : σ → ClientAt
  socket : σ → Attachment
  /-- The mailbox of the peer, and whether the peer is alive. -/
  inbox : σ → List α
  alive : σ → Bool

/-- A step of a thread. -/
inductive DialAct (σ α : Type*)
  /-- The broker makes the acceptor. -/
  | construct
  /-- The broker sets its monitor, and `on_monitor_set` begins. -/
  | setMonitor
  /-- `on_monitor_set` hands over the next socket of the wait list. -/
  | offer
  /-- `on_monitor_set` erases its range from the wait list. -/
  | release
  /-- The loop takes a signal, and `accept` takes a socket. -/
  | accept
  /-- `accept` makes its next assignment, or the loop keeps what it returned. -/
  | attach
  /-- The broker reads the mailbox of the peer of `c`. -/
  | read (c : σ)
  /-- The broker lets go of the peer of `c`. -/
  | drop (c : σ)
  /-- The client calls `connect`. -/
  | dial (c : σ)
  /-- The client finds that the wait list has no socket for the url. -/
  | wake (c : σ)
  /-- The client's time is over. -/
  | timeout (c : σ)
  /-- The constructor returns. -/
  | finish (c : σ)
  /-- The client sends a message. -/
  | send (c : σ) (msg : α)

namespace Dial

variable {σ α : Type*}

/-- No thread has started. -/
def start : Dial σ α where
  broker := .start
  connections := []
  mailbox := []
  signals := 0
  accepted := []
  client _ := .start
  socket _ := ⟨false, false, false⟩
  inbox _ := []
  alive _ := false

/-- The acceptor has a monitor. -/
def hasMonitor (s : Dial σ α) : Bool :=
  match s.broker with
  | .start => false
  | .constructed => false
  | _ => true

/-- `request_accepting`. The signal is sent also when the mailbox is full, and it is lost when there
is no monitor. -/
def requestAccepting (s : Dial σ α) (c : σ) : Dial σ α × Bool :=
  let signals := if s.hasMonitor then s.signals + 1 else s.signals
  match Mailbox.set s.mailbox c with
  | none => ({ s with signals }, false)
  | some mailbox => ({ s with mailbox, signals }, true)

variable [DecidableEq σ]

/-- `socket_t::send`, with its result. -/
def send (s : Dial σ α) (c : σ) (msg : α) : Dial σ α × Bool :=
  if (s.socket c).isAttached ∧ s.alive c then
    match Mailbox.set (s.inbox c) msg with
    | none => (s, false)
    | some q => ({ s with inbox := Function.update s.inbox c q }, true)
  else (s, false)

/-- One step. -/
def step (s : Dial σ α) : DialAct σ α → Option (Dial σ α)
  | .construct => if s.broker = .start then some { s with broker := .constructed } else none
  | .setMonitor =>
    if s.broker = .constructed then some { s with broker := .offering s.connections } else none
  | .offer =>
    match s.broker with
    -- the result of `request_accepting` is ignored, so a full mailbox drops the socket
    | .offering (c :: rest) => some { (s.requestAccepting c).1 with broker := .offering rest }
    | _ => none
  | .release =>
    if s.broker = .offering [] then some { s with connections := [], broker := .loop } else none
  | .accept =>
    if s.broker = .loop ∧ 0 < s.signals then
      match Mailbox.get s.mailbox with
      -- an earlier signal has taken the socket
      | none => some { s with signals := s.signals - 1 }
      | some (c, mailbox) =>
        some { s with
          signals := s.signals - 1
          mailbox
          broker := .setMailbox c
          inbox := Function.update s.inbox c []
          alive := Function.update s.alive c true }
    else none
  | .attach =>
    match s.broker with
    | .setMailbox c =>
      some { s with
        broker := .setName c
        socket := Function.update s.socket c { s.socket c with peerMailbox := true } }
    | .setName c =>
      some { s with
        broker := .setNotify c
        socket := Function.update s.socket c { s.socket c with peerName := true } }
    | .setNotify c =>
      some { s with
        broker := .returned c
        socket := Function.update s.socket c { s.socket c with peerNotify := true } }
    | .returned c => some { s with broker := .loop, accepted := s.accepted ++ [c] }
    | _ => none
  | .read c =>
    if s.broker = .loop then some { s with inbox := Function.update s.inbox c (s.inbox c).tail }
    else none
  | .drop c => some { s with alive := Function.update s.alive c false }
  | .dial c =>
    if s.client c = .start then
      -- without an acceptor for the url, the socket goes to the wait list
      if s.broker = .start then
        some { s with
          connections := s.connections ++ [c]
          client := Function.update s.client c .waiting }
      else
        let r := s.requestAccepting c
        some { r.1 with
          client := Function.update s.client c (if r.2 then .connected else .failed) }
    else none
  | .wake c =>
    -- the predicate asks for the url, not for this socket
    if s.client c = .waiting ∧ s.connections = [] then
      some { s with client := Function.update s.client c .connected }
    else none
  | .timeout c =>
    if s.client c = .waiting ∧ s.connections ≠ [] then
      some { s with
        connections := s.connections.erase c
        client := Function.update s.client c .failed }
    else none
  | .finish c =>
    if s.client c = .connected then
      some { s with client := Function.update s.client c .constructed }
    else none
  | .send c msg => if s.client c = .constructed then some (s.send c msg).1 else none

/-- `accept` has returned for the socket of a client. -/
def Accepted (s : Dial σ α) (c : σ) : Prop := c ∈ s.accepted ∨ s.broker = .returned c

instance (s : Dial σ α) (c : σ) : Decidable (s.Accepted c) :=
  inferInstanceAs (Decidable (_ ∨ _))

end Dial

end Ailoy
