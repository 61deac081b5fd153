import Ailoy.Broker.Network
import Ailoy.Lib.History

/-!
# The history of a run of the broker

The events of a run: a peer sends a packet, the broker receives it, puts one in a peer's mailbox,
and the peer takes it out. A refused packet leaves no event. `Moves` lists what a step does to the
network together with its events, and `Fifo` says what the histories of all runs have in common:
the broker receives what each peer has sent in order, a peer takes what was put for it in order, and
a forwarded packet is put right when it is received, so at most once and in the order of sending.
-/

namespace Ailoy

open Transition

/-- What happens to a packet. -/
inductive NetEvent
  /-- The peer of `s` sent it. -/
  | sent (s : SocketName) (pkt : Packet)
  /-- The broker received it from `s`. -/
  | received (s : SocketName) (pkt : Packet)
  /-- The broker put it in the mailbox of `dest`. It is a message of `source`, or the broker's own
  answer. -/
  | put (dest : SocketName) (source : Option SocketName) (pkt : Packet)
  /-- The peer of `s` took it from its mailbox. -/
  | took (s : SocketName) (pkt : Packet)

namespace Net

/-- The event of the send that a case of the switch asks for, unless the mailbox refuses it. -/
def emitsSend (n : Net) (s : SocketName) (msg : Packet) : Option Send → List NetEvent
  | none => []
  | some (.reply pkt) => if (n.deliver s pkt).2 then [.put s none pkt] else []
  | some (.forward target) => if (n.deliver target msg).2 then [.put target (some s) msg] else []

/-- The events of a step. -/
def emits (n : Net) : NetAct → List NetEvent
  | .accept _ => []
  | .send s pkt => if (n.send s pkt).2 then [.sent s pkt] else []
  | .recv s =>
    if s ∈ n.broker.sockets then
      match n.inbox s with
      | [] => []
      | msg :: _ =>
        match n.broker.handle s msg with
        | .error _ => []
        | .ok (_, send) => .received s msg :: n.emitsSend s msg send
    else []
  | .take s =>
    match (n.take s).1 with
    | none => []
    | some pkt => [.took s pkt]

/-- Runs of the network with their histories. -/
abbrev recordedStep : Recorded Net NetEvent → NetAct → Option (Recorded Net NetEvent) :=
  record step emits

/-- The network before its first connection, with no history. -/
def recordedEmpty : Recorded Net NetEvent := ⟨.empty, []⟩

/-- What a requested send puts, and where. -/
inductive Sends (s : SocketName) (msg : Packet) :
    Option Send → SocketName → Option SocketName → Packet → Prop
  | reply (pkt : Packet) : Sends s msg (some (.reply pkt)) s none pkt
  | forward (target : SocketName) : Sends s msg (some (.forward target)) target (some s) msg

/-- What a step can do, with its events. -/
inductive Moves (n : Net) : List NetEvent → Net → Prop
  | idle : Moves n [] n
  | accept {s : SocketName} : s ∉ n.broker.sockets →
      Moves n [] { n with broker := n.broker.accept s, attached := insert s n.attached }
  | send (s : SocketName) (pkt : Packet) :
      Moves n [.sent s pkt] { n with inbox := Function.update n.inbox s (n.inbox s ++ [pkt]) }
  | handle {s : SocketName} {msg : Packet} {rest : List Packet} {broker : Broker}
      {send : Option Send} : s ∈ n.broker.sockets → n.inbox s = msg :: rest →
      Broker.Handles n.broker s msg (broker, send) →
      Moves n [.received s msg] { n with broker, inbox := Function.update n.inbox s rest }
  | handlePut {s dest : SocketName} {msg pkt : Packet} {rest : List Packet} {broker : Broker}
      {send : Option Send} {source : Option SocketName} : s ∈ n.broker.sockets →
      n.inbox s = msg :: rest → Broker.Handles n.broker s msg (broker, send) →
      Sends s msg send dest source pkt →
      Moves n [.received s msg, .put dest source pkt]
        { n with
          broker
          inbox := Function.update n.inbox s rest
          mailbox := Function.update n.mailbox dest (n.mailbox dest ++ [pkt]) }
  | take {s : SocketName} {pkt : Packet} {rest : List Packet} : n.mailbox s = pkt :: rest →
      Moves n [.took s pkt] { n with mailbox := Function.update n.mailbox s rest }

/-- A handled message with what its send puts, if the mailbox has room. -/
theorem moves_dispatch {n : Net} {s : SocketName} {msg : Packet} {rest : List Packet}
    {broker : Broker} {send : Option Send} (hs : s ∈ n.broker.sockets)
    (hq : n.inbox s = msg :: rest) (hh : Broker.Handles n.broker s msg (broker, send)) :
    Moves n (.received s msg :: n.emitsSend s msg send)
      (dispatch { n with broker, inbox := Function.update n.inbox s rest } s msg send) := by
  cases send with
  | none => exact .handle hs hq hh
  | some send =>
    cases send with
    | reply pkt =>
      by_cases hfull : Mailbox.limit ≤ (n.mailbox s).length
      · simp only [emitsSend, dispatch, deliver, Mailbox.set_of_le hfull]
        exact .handle hs hq hh
      · simp only [emitsSend, dispatch, deliver, Mailbox.set_of_lt (not_le.mp hfull)]
        exact .handlePut hs hq hh (.reply pkt)
    | forward target =>
      by_cases hfull : Mailbox.limit ≤ (n.mailbox target).length
      · simp only [emitsSend, dispatch, deliver, Mailbox.set_of_le hfull]
        exact .handle hs hq hh
      · simp only [emitsSend, dispatch, deliver, Mailbox.set_of_lt (not_le.mp hfull)]
        exact .handlePut hs hq hh (.forward target)

/-- Every step is one of the moves, with the events that it emits. -/
theorem moves_of_step {n n' : Net} {a : NetAct} (h : n.step a = some n') :
    Moves n (n.emits a) n' := by
  cases a with
  | accept s =>
    simp only [step, accept] at h
    split_ifs at h with hs
    obtain rfl := Option.some.inj h
    exact .accept hs
  | send s pkt =>
    obtain rfl := Option.some.inj h
    by_cases hs : s ∈ n.attached
    · by_cases hfull : Mailbox.limit ≤ (n.inbox s).length
      · simp only [emits, send, if_pos hs, Mailbox.set_of_le hfull]
        exact .idle
      · simp only [emits, send, if_pos hs, Mailbox.set_of_lt (not_le.mp hfull)]
        exact .send s pkt
    · simp only [emits, send, if_neg hs]
      exact .idle
  | recv s =>
    rcases recv_cases h with ⟨rfl, hno | hno⟩ | ⟨msg, rest, broker, send, hs, hq, hh, rfl⟩
    · simp only [emits, if_neg hno]
      exact .idle
    · simp only [emits, hno, ite_self]
      exact .idle
    · simp only [emits, if_pos hs, hq, hh]
      exact moves_dispatch hs hq (Broker.handles_of_handle hh)
  | take s =>
    obtain rfl := Option.some.inj h
    cases hq : n.mailbox s with
    | nil =>
      simp only [emits, take, hq, Mailbox.get]
      exact .idle
    | cons pkt rest =>
      simp only [emits, take, hq, Mailbox.get]
      exact .take hq

/-! ## The packets of a history -/

/-- What the peer of `s` has sent. -/
def sentBy (s : SocketName) (h : List NetEvent) : List Packet :=
  h.filterMap fun
    | .sent s' pkt => if s' = s then some pkt else none
    | _ => none

/-- What the broker has received from `s`. -/
def receivedBy (s : SocketName) (h : List NetEvent) : List Packet :=
  h.filterMap fun
    | .received s' pkt => if s' = s then some pkt else none
    | _ => none

/-- What the broker has put in the mailbox of `s`, with the sources. -/
def putsTo (s : SocketName) (h : List NetEvent) : List (Option SocketName × Packet) :=
  h.filterMap fun
    | .put dest source pkt => if dest = s then some (source, pkt) else none
    | _ => none

/-- What the broker has forwarded from `s`. -/
def forwardsOf (s : SocketName) (h : List NetEvent) : List Packet :=
  h.filterMap fun
    | .put _ source pkt => if source = some s then some pkt else none
    | _ => none

/-- What the peer of `s` has taken from its mailbox. -/
def tookBy (s : SocketName) (h : List NetEvent) : List Packet :=
  h.filterMap fun
    | .took s' pkt => if s' = s then some pkt else none
    | _ => none

section Logs

variable (s : SocketName) (h es : List NetEvent)

theorem sentBy_append : sentBy s (h ++ es) = sentBy s h ++ sentBy s es := List.filterMap_append

theorem receivedBy_append : receivedBy s (h ++ es) = receivedBy s h ++ receivedBy s es :=
  List.filterMap_append

theorem putsTo_append : putsTo s (h ++ es) = putsTo s h ++ putsTo s es := List.filterMap_append

theorem forwardsOf_append : forwardsOf s (h ++ es) = forwardsOf s h ++ forwardsOf s es :=
  List.filterMap_append

theorem tookBy_append : tookBy s (h ++ es) = tookBy s h ++ tookBy s es := List.filterMap_append

end Logs

/-- What a peer has sent is in the history. -/
theorem mem_sentBy {s : SocketName} {h : List NetEvent} {pkt : Packet} :
    pkt ∈ sentBy s h ↔ .sent s pkt ∈ h := by
  unfold sentBy
  rw [List.mem_filterMap]
  constructor
  · rintro ⟨e, he, hpkt⟩
    cases e with
    | sent s' pkt' =>
      simp only [Option.ite_none_right_eq_some, Option.some.injEq] at hpkt
      obtain ⟨rfl, rfl⟩ := hpkt
      exact he
    | _ => cases hpkt
  · intro he
    exact ⟨_, he, by simp⟩

/-- A step appends to an inbox what is sent, and drops from its front what is received. -/
theorem Moves.inbox {n n' : Net} {es : List NetEvent} (hm : Moves n es n') (s : SocketName) :
    n.inbox s ++ sentBy s es = receivedBy s es ++ n'.inbox s := by
  cases hm with
  | idle => simp [sentBy, receivedBy]
  | accept hs => simp [sentBy, receivedBy]
  | send s' pkt =>
    by_cases hs : s = s'
    · subst hs
      simp [sentBy, receivedBy]
    · simp [sentBy, receivedBy, hs, Ne.symm hs]
  | @handle s' _ _ _ _ _ hq | @handlePut s' _ _ _ _ _ _ _ _ hq =>
    by_cases hs : s = s'
    · subst hs
      simp [sentBy, receivedBy, hq]
    · simp [sentBy, receivedBy, hs, Ne.symm hs]
  | take hq => simp [sentBy, receivedBy]

/-- A step appends to a mailbox what is put, and drops from its front what is taken. -/
theorem Moves.mailbox {n n' : Net} {es : List NetEvent} (hm : Moves n es n') (s : SocketName) :
    n.mailbox s ++ (putsTo s es).map Prod.snd = tookBy s es ++ n'.mailbox s := by
  cases hm with
  | idle => simp [putsTo, tookBy]
  | accept hs => simp [putsTo, tookBy]
  | send s' pkt => simp [putsTo, tookBy]
  | handle => simp [putsTo, tookBy]
  | @handlePut s' dest =>
    by_cases hs : s = dest
    · subst hs
      simp [putsTo, tookBy]
    · simp [putsTo, tookBy, hs, Ne.symm hs]
  | @take s' pkt rest hq =>
    by_cases hs : s = s'
    · subst hs
      simp [putsTo, tookBy, hq]
    · simp [putsTo, tookBy, hs, Ne.symm hs]

/-- A step forwards a message of `s` only if it receives it. -/
theorem Moves.forwards {n n' : Net} {es : List NetEvent} (hm : Moves n es n') (s : SocketName) :
    (forwardsOf s es).Sublist (receivedBy s es) := by
  cases hm with
  | idle => simp [forwardsOf]
  | accept hs => simp [forwardsOf]
  | send s' pkt => simp [forwardsOf]
  | handle => simp [forwardsOf]
  | handlePut _ _ _ hput =>
    cases hput with
    | reply pkt => simp [forwardsOf]
    | forward target =>
      simp only [forwardsOf, receivedBy, List.filterMap_cons, List.filterMap_nil,
        Option.some.injEq]
      split_ifs <;> simp
  | take hq => simp [forwardsOf]

/-- What the queues and the history of any run have to do with each other. -/
structure Fifo (n : Net) (h : List NetEvent) : Prop where
  /-- The broker has received what a peer has sent, in order, but for what is in the inbox. -/
  inbox : ∀ s, sentBy s h = receivedBy s h ++ n.inbox s
  /-- A peer has taken what was put for it, in order, but for what is in its mailbox. -/
  mailbox : ∀ s, (putsTo s h).map Prod.snd = tookBy s h ++ n.mailbox s
  /-- The broker has forwarded some of what it has received, in order, and each message once. -/
  forwards : ∀ s, (forwardsOf s h).Sublist (receivedBy s h)

/-- The queues of every run. -/
theorem fifo_of_reach {r : Recorded Net NetEvent} (hr : Reach recordedStep recordedEmpty r) :
    Fifo r.state r.history := by
  have h₀ : Fifo recordedEmpty.state recordedEmpty.history :=
    ⟨fun _ => rfl, fun _ => rfl, fun _ => List.Sublist.refl []⟩
  refine hr.invariant (P := fun r => Fifo r.state r.history) h₀ ?_
  rintro ⟨n, h⟩ a ⟨n', h'⟩ - hf - hstep
  obtain ⟨hstep, rfl⟩ := record_eq_some_iff.mp hstep
  have hm := moves_of_step hstep
  refine ⟨fun s => ?_, fun s => ?_, fun s => ?_⟩
  · rw [sentBy_append, receivedBy_append, hf.inbox, List.append_assoc, hm.inbox,
      List.append_assoc]
  · rw [putsTo_append, tookBy_append, List.map_append, hf.mailbox, List.append_assoc, hm.mailbox,
      List.append_assoc]
  · rw [forwardsOf_append, receivedBy_append]
    exact (hf.forwards s).append (hm.forwards s)

end Net

end Ailoy
