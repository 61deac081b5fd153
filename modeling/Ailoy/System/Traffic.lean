import Ailoy.System.Defs

/-!
# What travels in the system

Clients send only their messages, and the VM only packets of its handlers, so each queue holds
packets of a few kinds, every subscription is the VM's, and every requester is a client. `Traffic`
is this invariant. Under it a step of the system is one of the cases of `Moves`, each with what it
says about the tables and the queues: the broker answers a control message, refuses a request or
forwards it to the VM, and relays a response to the requester or drops it when the transaction has
vanished.
-/

namespace Ailoy

open Transition

namespace Broker

/-- The channels that a socket owns. -/
def routes (b : Broker) (o : SocketName) : Set Channel := {ch | b.subscriptions.lookup ch = some o}

/-- Every subscription is one of the socket `v`. -/
def OwnedBy (b : Broker) (v : SocketName) : Prop :=
  ∀ ch o, b.subscriptions.lookup ch = some o → o = v

variable {b : Broker} {v c : SocketName} {t : TxId} {ch : Channel}

theorem OwnedBy.onDisconnect (t : TxId) (h : b.OwnedBy v) :
    (b.onDisconnect c t).1.OwnedBy v := by
  intro ch o ho
  exact h ch o (subscriptions_onDisconnect b c t |>.mp ho).1

theorem OwnedBy.onSubscribe (h : b.OwnedBy v) : (b.onSubscribe v t ch).1.OwnedBy v := by
  intro ch' o ho
  rw [subscriptions_onSubscribe] at ho
  rcases Option.or_eq_some_iff.mp ho with ho | ⟨-, ho⟩
  · exact h ch' o ho
  · split_ifs at ho
    exact (Option.some.inj ho).symm

theorem OwnedBy.onUnsubscribe (h : b.OwnedBy v) : (b.onUnsubscribe v t ch).1.OwnedBy v := by
  intro ch' o ho
  rw [subscriptions_onUnsubscribe] at ho
  split_ifs at ho
  exact h ch' o ho

/-- A subscription of the only owner adds the channel. -/
theorem routes_onSubscribe (h : b.OwnedBy v) :
    (b.onSubscribe v t ch).1.routes v = b.routes v ∪ {ch} := by
  ext ch'
  simp only [routes, Set.mem_ofPred_eq, Set.mem_union, Set.mem_singleton_iff,
    subscriptions_onSubscribe]
  cases hown : b.subscriptions.lookup ch' with
  | none => by_cases heq : ch' = ch <;> simp [heq]
  | some o => simp [h ch' o hown]

/-- An unsubscription of the only owner takes the channel away. -/
theorem routes_onUnsubscribe : (b.onUnsubscribe v t ch).1.routes v = b.routes v \ {ch} := by
  ext ch'
  simp only [routes, Set.mem_ofPred_eq, Set.mem_sdiff, Set.mem_singleton_iff,
    subscriptions_onUnsubscribe]
  by_cases heq : ch' = ch
  · by_cases hown : b.subscriptions.lookup ch = some v <;> simp [heq]
  · simp [heq]

/-- A disconnect takes all channels of its sender away, and no others. -/
theorem routes_onDisconnect :
    (b.onDisconnect c t).1.routes v = if c = v then ∅ else b.routes v := by
  ext ch
  simp only [routes, Set.mem_ofPred_eq, subscriptions_onDisconnect]
  by_cases heq : c = v
  · simp [heq]
  · simp [heq, Ne.symm heq]

/-- The answer to a subscription is a response to its sender. -/
theorem onSubscribe_reply (b : Broker) (c : SocketName) (t : TxId) (ch : Channel) :
    ∃ r, (b.onSubscribe c t ch).2 = some (.reply r) ∧ r.ForVm ∧ r.ptype = .respond := by
  unfold onSubscribe
  split
  · exact ⟨_, rfl, .respondError t _, rfl⟩
  · exact ⟨_, rfl, .respond t, rfl⟩

/-- The answer to an unsubscription is a response to its sender. -/
theorem onUnsubscribe_reply (b : Broker) (c : SocketName) (t : TxId) (ch : Channel) :
    ∃ r, (b.onUnsubscribe c t ch).2 = some (.reply r) ∧ r.ForVm ∧ r.ptype = .respond := by
  unfold onUnsubscribe
  split
  · exact ⟨_, rfl, .respondError t _, rfl⟩
  · split
    · exact ⟨_, rfl, .respondError t _, rfl⟩
    · exact ⟨_, rfl, .respond t, rfl⟩

end Broker

namespace Net

/-- The network after the broker has taken the first message of `c`, with its tables `b`. -/
def received (n : Net) (c : SocketName) (b : Broker) (rest : List Packet) : Net :=
  { n with broker := b, inbox := Function.update n.inbox c rest }

/-- A send of the broker puts the packet at the end of the mailbox, if there is room. -/
theorem deliver_mailbox (n : Net) (c : SocketName) (pkt : Packet) :
    (n.deliver c pkt).1.mailbox = if (n.mailbox c).length < Mailbox.limit
      then Function.update n.mailbox c (n.mailbox c ++ [pkt]) else n.mailbox := by
  unfold deliver
  split_ifs with h
  · rw [Mailbox.set_of_lt h]
  · rw [Mailbox.set_of_le (by omega)]

/-- What is in a mailbox after a send of the broker was there before, or is the packet. -/
theorem mem_deliver_mailbox {n : Net} {c o : SocketName} {pkt p : Packet}
    (h : p ∈ (n.deliver c pkt).1.mailbox o) : p ∈ n.mailbox o ∨ o = c ∧ p = pkt := by
  rw [deliver_mailbox] at h
  split_ifs at h
  · by_cases ho : o = c
    · subst ho
      rw [Function.update_self, List.mem_append, List.mem_singleton] at h
      exact h.imp_right fun hp => ⟨rfl, hp⟩
    · rw [Function.update_of_ne ho] at h
      exact .inl h
  · exact .inl h

end Net

namespace Sys

variable {σ ω : Type}

/-- The kinds of packets in each queue, and whose the tables' entries are. -/
structure Traffic (v : SocketName) (s : Sys σ ω) : Prop where
  attached : v ∈ s.net.attached
  owned : s.net.broker.OwnedBy v
  requesters : ∀ t c, s.net.broker.transactions.lookup t = some c →
    c ≠ v ∧ c ∈ s.net.attached
  unattached : ∀ c, c ∉ s.net.attached → s.net.inbox c = [] ∧ s.net.mailbox c = []
  clients : ∀ c, c ≠ v → ∀ p ∈ s.net.inbox c, ∃ m : ClientMsg, p = m.packet
  ofVm : ∀ p ∈ s.net.inbox v ++ s.out, p.OfVm
  forVm : ∀ p ∈ s.net.mailbox v, p.ForVm

/-- A socket whose inbox is not empty is attached to a peer. -/
theorem Traffic.mem_attached {v c : SocketName} {s : Sys σ ω} (ht : s.Traffic v) {p : Packet}
    {rest : List Packet} (hq : s.net.inbox c = p :: rest) : c ∈ s.net.attached := by
  by_contra hc
  rw [(ht.unattached c hc).1] at hq
  cases hq

/-- The events of a client's message that is sent. -/
def requestedBy (c : SocketName) : ClientMsg → List (SysEvent σ ω)
  | .execute t r => [.requested c t r]
  | _ => []

/-- What a step can do, with its events. -/
inductive Moves (v : SocketName) (uuid : ℕ → TxId) (s : Sys σ ω) :
    SysAct σ ω → List (SysEvent σ ω) → Sys σ ω → Prop
  | idle {a : SysAct σ ω} : Moves v uuid s a [] s
  | accept {c : SocketName} : c ≠ v →
      Moves v uuid s (.accept c) []
        { s with net := { s.net with
            broker := s.net.broker.accept c
            attached := insert c s.net.attached } }
  | client {c : SocketName} (m : ClientMsg) : c ≠ v → c ∈ s.net.attached →
      Moves v uuid s (.client c m) (requestedBy c m)
        { s with net := { s.net with
            inbox := Function.update s.net.inbox c (s.net.inbox c ++ [m.packet]) } }
  | take {c : SocketName} {pkt : Packet} {rest : List Packet} : c ≠ v →
      s.net.mailbox c = pkt :: rest →
      Moves v uuid s (.take c) [.took c pkt]
        { s with net := { s.net with mailbox := Function.update s.net.mailbox c rest } }
  | reply {c : SocketName} {msg reply : Packet} {rest : List Packet} {b : Broker} :
      s.net.inbox c = msg :: rest → msg.ptype ≠ .execute → msg.ptype ≠ .respondExecute →
      b.OwnedBy v → b.transactions = s.net.broker.transactions →
      b.routes v = (if c = v then announce (s.net.broker.routes v) msg
        else s.net.broker.routes v) →
      reply.ForVm → reply.ptype = .respond →
      Moves v uuid s (.broker c) []
        { s with net := ((s.net.received c b rest).deliver c reply).1 }
  | refuse {c : SocketName} {t : TxId} {r : Request} {rest : List Packet} : c ≠ v →
      s.net.inbox c = .execute t r :: rest →
      s.net.broker.subscriptions.lookup r.instruction.channel = none →
      s.sends v (.broker c) = some (.respondExecuteError t 0
        "There is no channel can handle this request", s.net.mailbox c) →
      Moves v uuid s (.broker c) []
        { s with net := ((s.net.received c s.net.broker rest).deliver c
            (.respondExecuteError t 0 "There is no channel can handle this request")).1 }
  | forward {c : SocketName} {t : TxId} {r : Request} {rest : List Packet} : c ≠ v →
      s.net.inbox c = .execute t r :: rest →
      s.net.broker.subscriptions.lookup r.instruction.channel = some v →
      s.sends v (.broker c) = some (.execute t r, s.net.mailbox v) →
      Moves v uuid s (.broker c) []
        { s with net := ((s.net.received c
            { s.net.broker with transactions := s.net.broker.transactions.insert t c }
            rest).deliver v (.execute t r)).1 }
  | relay {c : SocketName} {t : TxId} {i : ℕ} {out : Output} {rest : List Packet}
      {b : Broker} : c ≠ v → s.net.inbox v = out.packet t i :: rest →
      s.net.broker.transactions.lookup t = some c →
      b.subscriptions = s.net.broker.subscriptions →
      (∀ t', b.transactions.lookup t' = if t' = t ∧ out.final = true then none
        else s.net.broker.transactions.lookup t') →
      s.sends v (.broker v) = some (out.packet t i, s.net.mailbox c) →
      Moves v uuid s (.broker v) []
        { s with net := ((s.net.received v b rest).deliver c (out.packet t i)).1 }
  | vanish {t : TxId} {i : ℕ} {out : Output} {rest : List Packet} :
      s.net.inbox v = out.packet t i :: rest → s.net.broker.transactions.lookup t = none →
      Moves v uuid s (.broker v) [] { s with net := s.net.received v s.net.broker rest }
  | vm {a : LoopAct σ ω} {loop : Loop σ ω} {pkts : List Packet} : s.out = [] →
      Loop.Moves uuid s.loop a loop pkts →
      (∀ pkt, a ≠ .recv pkt) →
      Moves v uuid s (.vm a) (pkts.map .produced) { s with loop, out := pkts }
  | vmRecv {pkt : Packet} {rest pkts : List Packet} {loop : Loop σ ω} : s.out = [] →
      s.net.mailbox v = pkt :: rest → Loop.Moves uuid s.loop (.recv pkt) loop pkts →
      Moves v uuid s .vmRecv (.handled pkt s.loop.vm loop.vm :: pkts.map .produced)
        ⟨{ s.net with mailbox := Function.update s.net.mailbox v rest }, loop, pkts⟩
  | vmSend {pkt : Packet} {rest : List Packet} : s.out = pkt :: rest →
      Moves v uuid s .vmSend []
        { s with
          net := { s.net with inbox := Function.update s.net.inbox v (s.net.inbox v ++ [pkt]) }
          out := rest }
  | vmDrop {pkt : Packet} {rest : List Packet} : s.out = pkt :: rest →
      s.sends v .vmSend = some (pkt, s.net.inbox v) →
      Mailbox.limit ≤ (s.net.inbox v).length →
      Moves v uuid s .vmSend [] { s with out := rest }
  | vmAbort {pkt : Packet} {rest : List Packet} (f : Fault) : s.out = pkt :: rest →
      s.sends v .vmSend = some (pkt, s.net.inbox v) →
      Mailbox.limit ≤ (s.net.inbox v).length → s.loop.activity = .importing →
      Moves v uuid s .vmSend []
        { s with loop := { s.loop with activity := .left f }, out := [] }

variable {v : SocketName} {uuid : ℕ → TxId} {s s' : Sys σ ω}

/-- The broker's handling of a client's message. -/
theorem moves_of_client_msg (ht : s.Traffic v) {c : SocketName} (hc : c ≠ v) {m : ClientMsg}
    {rest : List Packet} {b : Broker} {send : Option Send} (hsock : c ∈ s.net.broker.sockets)
    (hq : s.net.inbox c = m.packet :: rest)
    (hh : s.net.broker.handle c m.packet = .ok (b, send)) :
    Moves v uuid s (.broker c) [] { s with
      net := Net.dispatch (s.net.received c b rest) c m.packet send } := by
  have hsends : s.sends v (.broker c) =
      match send with
      | some (.reply pkt) => some (pkt, s.net.mailbox c)
      | some (.forward target) => some (m.packet, s.net.mailbox target)
      | none => none := by
    simp only [sends, if_pos hsock, hq, hh]
    rcases send with _ | ⟨_ | _⟩ <;> rfl
  cases m with
  | connect t =>
    obtain ⟨rfl, rfl⟩ := Prod.mk.inj (Except.ok.inj (hh.symm.trans (Broker.handle_connect _ _ _)))
    refine .reply hq (by rintro ⟨⟩) (by rintro ⟨⟩) ht.owned rfl ?_ (.respond t) rfl
    rw [if_neg hc]
  | disconnect t =>
    obtain ⟨rfl, rfl⟩ :=
      Prod.mk.inj (Except.ok.inj (hh.symm.trans (Broker.handle_disconnect _ _ _)))
    have hroutes : (s.net.broker.onDisconnect c t).1.routes v = s.net.broker.routes v := by
      rw [Broker.routes_onDisconnect, if_neg hc]
    refine .reply hq (by rintro ⟨⟩) (by rintro ⟨⟩) (ht.owned.onDisconnect t) rfl ?_ (.respond t) rfl
    rw [if_neg hc]
    exact hroutes
  | execute t r =>
    have hexec := Except.ok.inj (hh.symm.trans (Broker.handle_execute _ _ _ _))
    unfold Broker.onExecute at hexec
    cases hsub : s.net.broker.subscriptions.lookup r.instruction.channel with
    | none =>
      rw [hsub] at hexec
      obtain ⟨rfl, rfl⟩ := Prod.mk.inj hexec
      exact .refuse hc hq hsub hsends
    | some o =>
      rw [hsub] at hexec
      obtain ⟨rfl, rfl⟩ := Prod.mk.inj hexec
      obtain rfl := ht.owned _ _ hsub
      exact .forward hc hq hsub hsends

/-- The broker's handling of a packet of the VM. -/
theorem moves_of_vm_packet (ht : s.Traffic v) {msg : Packet} {rest : List Packet} {b : Broker}
    {send : Option Send} (hsock : v ∈ s.net.broker.sockets) (hq : s.net.inbox v = msg :: rest)
    (hh : s.net.broker.handle v msg = .ok (b, send)) :
    Moves v uuid s (.broker v) [] { s with
      net := Net.dispatch (s.net.received v b rest) v msg send } := by
  have hmsg : msg.OfVm := ht.ofVm msg (by rw [hq]; exact List.mem_append_left _ (.head _))
  have hsends : ∀ c, send = some (.forward c) →
      s.sends v (.broker v) = some (msg, s.net.mailbox c) := by
    rintro c rfl
    simp only [sends, if_pos hsock, hq, hh]
  cases hmsg with
  | subscribe t i =>
    have hsub := Except.ok.inj (hh.symm.trans (Broker.handle_subscribe _ _ _ _))
    obtain ⟨reply, hreply, hfor, hpt⟩ :=
      Broker.onSubscribe_reply s.net.broker v t i.channel
    rw [← hsub] at hreply
    obtain rfl : send = some (.reply reply) := hreply
    obtain rfl : b = (s.net.broker.onSubscribe v t i.channel).1 := by rw [← hsub]
    refine .reply hq (by rintro ⟨⟩) (by rintro ⟨⟩) ht.owned.onSubscribe
      (Broker.transactions_onSubscribe ..) ?_ hfor hpt
    rw [if_pos rfl, announce_subscribe, Broker.routes_onSubscribe ht.owned, channels_singleton]
  | unsubscribe t i =>
    have hsub := Except.ok.inj (hh.symm.trans (Broker.handle_unsubscribe _ _ _ _))
    obtain ⟨reply, hreply, hfor, hpt⟩ :=
      Broker.onUnsubscribe_reply s.net.broker v t i.channel
    rw [← hsub] at hreply
    obtain rfl : send = some (.reply reply) := hreply
    obtain rfl : b = (s.net.broker.onUnsubscribe v t i.channel).1 := by rw [← hsub]
    refine .reply hq (by rintro ⟨⟩) (by rintro ⟨⟩) ht.owned.onUnsubscribe
      (Broker.transactions_onUnsubscribe ..) ?_ hfor hpt
    rw [if_pos rfl, announce_unsubscribe, Broker.routes_onUnsubscribe, channels_singleton]
  | disconnect t =>
    obtain ⟨rfl, rfl⟩ :=
      Prod.mk.inj (Except.ok.inj (hh.symm.trans (Broker.handle_disconnect _ _ _)))
    have hroutes : (s.net.broker.onDisconnect v t).1.routes v = ∅ := by
      rw [Broker.routes_onDisconnect, if_pos rfl]
    refine .reply hq (by rintro ⟨⟩) (by rintro ⟨⟩) (ht.owned.onDisconnect t) rfl ?_ (.respond t) rfl
    rw [if_pos rfl]
    exact hroutes
  | output t i out =>
    have hresp : s.net.broker.onRespondExecute t out.final = (b, send) := by
      cases out with
      | ok val fin =>
        exact Except.ok.inj ((Broker.handle_respondExecute _ _ _ _ _ _).symm.trans hh)
      | error e =>
        exact Except.ok.inj ((Broker.handle_respondExecuteError _ _ _ _ _).symm.trans hh)
    have htx := Broker.transactions_onRespondExecute s.net.broker t out.final
    have hsubs := Broker.subscriptions_onRespondExecute s.net.broker t out.final
    rw [hresp] at htx hsubs
    unfold Broker.onRespondExecute at hresp
    cases hopen : s.net.broker.transactions.lookup t with
    | none =>
      rw [hopen] at hresp
      obtain ⟨rfl, rfl⟩ := Prod.mk.inj hresp
      exact .vanish hq hopen
    | some c =>
      have hsend : send = some (.forward c) := by
        simp only [hopen] at hresp
        split_ifs at hresp <;> exact (Prod.mk.inj hresp).2.symm
      subst hsend
      exact .relay (ht.requesters t c hopen).1 hq hopen hsubs htx (hsends c rfl)

/-- The move of the VM when it sends the next packet. -/
theorem moves_of_vmSend (ht : s.Traffic v) (h : s.vmSend v = some s') :
    Moves v uuid s .vmSend [] s' := by
  unfold vmSend at h
  cases hout : s.out with
  | nil => simp [hout] at h
  | cons pkt rest =>
    have hsends : s.sends v .vmSend = some (pkt, s.net.inbox v) := by simp only [sends, hout]
    rcases Nat.lt_or_ge (s.net.inbox v).length Mailbox.limit with hroom | hfull
    · simp only [hout, Net.send, if_pos ht.attached, Mailbox.set_of_lt hroom] at h
      obtain rfl := Option.some.inj h
      exact .vmSend hout
    · simp only [hout, Net.send, if_pos ht.attached, Mailbox.set_of_le hfull] at h
      split at h
      · rename_i heq
        cases (Prod.mk.inj heq).2
      · rename_i hact
        obtain rfl := Option.some.inj h
        exact .vmAbort _ hout hsends hfull hact
      · obtain rfl := Option.some.inj h
        exact .vmDrop hout hsends hfull

/-- Every step is one of the moves, with the events that it emits. -/
theorem moves_of_step (ht : s.Traffic v) {a : SysAct σ ω} (h : step v uuid s a = some s') :
    Moves v uuid s a (emits v uuid s a) s' := by
  cases a with
  | accept c =>
    simp only [step] at h
    split_ifs at h with hc
    obtain ⟨net, hnet, rfl⟩ := Option.map_eq_some_iff.mp h
    unfold Net.accept at hnet
    split_ifs at hnet
    obtain rfl := Option.some.inj hnet
    exact .accept hc
  | client c m =>
    simp only [step] at h
    split_ifs at h with hc
    obtain rfl := Option.some.inj h
    by_cases hatt : c ∈ s.net.attached
    · rcases Nat.lt_or_ge (s.net.inbox c).length Mailbox.limit with hroom | hfull
      · simp only [emits, Net.send, if_pos hatt, Mailbox.set_of_lt hroom]
        have hmove : Moves v uuid s (.client c m) (requestedBy c m) _ := .client m hc hatt
        cases m <;> exact hmove
      · simp only [emits, Net.send, if_pos hatt, Mailbox.set_of_le hfull]
        cases m <;> exact .idle
    · simp only [emits, Net.send, if_neg hatt]
      cases m <;> exact .idle
  | take c =>
    simp only [step] at h
    split_ifs at h with hc
    obtain rfl := Option.some.inj h
    cases hq : s.net.mailbox c with
    | nil =>
      simp only [emits, Net.take, hq, Mailbox.get]
      exact .idle
    | cons pkt rest =>
      simp only [emits, Net.take, hq, Mailbox.get]
      exact .take hc hq
  | broker c =>
    obtain ⟨net, hnet, rfl⟩ := Option.map_eq_some_iff.mp h
    rcases Net.recv_cases hnet with ⟨rfl, -⟩ | ⟨msg, rest, b, send, hsock, hq, hh, rfl⟩
    · exact .idle
    · by_cases hc : c = v
      · subst hc
        exact moves_of_vm_packet ht hsock hq hh
      · obtain ⟨m, rfl⟩ := ht.clients c hc msg (by rw [hq]; exact .head _)
        exact moves_of_client_msg ht hc hsock hq hh
  | vm a =>
    have hno : ∀ pkt, a ≠ .recv pkt := by
      rintro pkt rfl
      simp [step] at h
    cases hout : s.out with
    | cons pkt rest =>
      cases a <;> simp [step, hout] at h
    | nil =>
      have hstep : ∃ loop pkts, s.loop.step uuid a = some (loop, pkts) ∧
          { s with loop, out := pkts } = s' := by
        cases a with
        | recv pkt => exact absurd rfl (hno pkt)
        | _ =>
          simp only [step, hout] at h
          obtain ⟨⟨loop, pkts⟩, hloop, hs'⟩ := Option.map_eq_some_iff.mp h
          exact ⟨loop, pkts, hloop, hs'⟩
      obtain ⟨loop, pkts, hloop, rfl⟩ := hstep
      have hmove := Loop.moves_of_step (fun pkt ha => absurd ha (hno pkt)) hloop
      simp only [emits, hloop]
      exact .vm hout hmove hno
  | vmRecv =>
    simp only [step, vmRecv] at h
    cases hout : s.out with
    | cons pkt rest => simp [hout] at h
    | nil =>
      cases hq : s.net.mailbox v with
      | nil => simp [hout, Net.take, hq, Mailbox.get] at h
      | cons pkt rest =>
        simp only [hout, Net.take, hq, Mailbox.get] at h
        obtain ⟨⟨loop, pkts⟩, hloop, rfl⟩ := Option.map_eq_some_iff.mp h
        have hfor : ∀ pkt', LoopAct.recv (σ := σ) (ω := ω) pkt = .recv pkt' → pkt'.ForVm := by
          rintro _ ⟨⟩
          exact ht.forVm pkt (by rw [hq]; exact .head _)
        have hmove := Loop.moves_of_step hfor hloop
        simp only [emits, Net.take, hq, Mailbox.get, hloop]
        exact .vmRecv hout hq hmove
  | vmSend => exact moves_of_vmSend ht h

/-! ## The invariant -/

/-- The start has empty queues and tables. -/
theorem traffic_start (v : SocketName) (env : ω) : (start v env : Sys σ ω).Traffic v where
  attached := Finset.mem_singleton_self v
  owned ch o h := by simp [start, Broker.accept, Broker.empty] at h
  requesters t c h := by simp [start, Broker.accept, Broker.empty] at h
  unattached c _ := ⟨rfl, rfl⟩
  clients c _ p hp := by simp [start, Net.empty] at hp
  ofVm p hp := by simp [start, Net.empty] at hp
  forVm p hp := by simp [start, Net.empty] at hp

/-- The broker takes a message and sends a packet, with other tables of the same owners. -/
theorem Traffic.deliver (ht : s.Traffic v) {c dest : SocketName} {msg pkt : Packet}
    {rest : List Packet} {b : Broker} (hq : s.net.inbox c = msg :: rest) (hb : b.OwnedBy v)
    (hreq : ∀ t c, b.transactions.lookup t = some c → c ≠ v ∧ c ∈ s.net.attached)
    (hdest : dest ∈ s.net.attached) (hpkt : dest = v → pkt.ForVm) :
    ({ s with net := ((s.net.received c b rest).deliver dest pkt).1 } : Sys σ ω).Traffic v := by
  have hinbox : ∀ o, ∀ p ∈ Function.update s.net.inbox c rest o, p ∈ s.net.inbox o := by
    intro o p hp
    by_cases ho : o = c
    · subst ho
      rw [Function.update_self] at hp
      rw [hq]
      exact List.mem_cons_of_mem _ hp
    · rwa [Function.update_of_ne ho] at hp
  refine ⟨?_, ?_, ?_, fun o ho => ?_, ?_, ?_, ?_⟩
  · simp only [Net.deliver_attached]
    exact ht.attached
  · simp only [Net.deliver_broker]
    exact hb
  · simp only [Net.deliver_broker, Net.deliver_attached]
    exact hreq
  · simp only [Net.deliver_attached] at ho
    obtain ⟨hin, hmail⟩ := ht.unattached o ho
    refine ⟨List.eq_nil_iff_forall_not_mem.mpr fun p hp => ?_,
      List.eq_nil_iff_forall_not_mem.mpr fun p hp => ?_⟩
    · rw [Net.deliver_inbox] at hp
      have hp' := hinbox o p hp
      rw [hin] at hp'
      cases hp'
    · rcases Net.mem_deliver_mailbox hp with hp | ⟨rfl, -⟩
      · have hp' : p ∈ s.net.mailbox o := hp
        rw [hmail] at hp'
        cases hp'
      · exact ho hdest
  · intro o ho p hp
    rw [Net.deliver_inbox] at hp
    exact ht.clients o ho p (hinbox o p hp)
  · intro p hp
    rw [Net.deliver_inbox] at hp
    refine ht.ofVm p ?_
    rcases List.mem_append.mp hp with hp | hp
    · exact List.mem_append_left _ (hinbox v p hp)
    · exact List.mem_append_right _ hp
  · intro p hp
    rcases Net.mem_deliver_mailbox hp with hp | ⟨hv, rfl⟩
    · exact ht.forVm p hp
    · exact hpkt hv.symm

/-- The kinds of packets are preserved by every step. -/
theorem Traffic.moves (ht : s.Traffic v) {a : SysAct σ ω} {es : List (SysEvent σ ω)}
    (hm : Moves v uuid s a es s') : s'.Traffic v := by
  cases hm with
  | idle => exact ht
  | accept hc =>
    refine ⟨Finset.mem_insert_of_mem ht.attached, ht.owned, fun t c h => ?_, fun c hc => ?_,
      ht.clients, ht.ofVm, ht.forVm⟩
    · obtain ⟨hv, hatt⟩ := ht.requesters t c h
      exact ⟨hv, Finset.mem_insert_of_mem hatt⟩
    · exact ht.unattached c fun h => hc (Finset.mem_insert_of_mem h)
  | @client c m hc hatt =>
    refine ⟨ht.attached, ht.owned, ht.requesters, fun o ho => ?_, fun o ho p hp => ?_, ?_,
      ht.forVm⟩
    · -- The client is attached, so no unattached socket gets the packet.
      have hoc : o ≠ c := fun h => ho (h ▸ hatt)
      simp only [Function.update_of_ne hoc]
      exact ht.unattached o ho
    · by_cases hoc : o = c
      · subst hoc
        simp only [Function.update_self, List.mem_append, List.mem_singleton] at hp
        rcases hp with hp | rfl
        · exact ht.clients o ho p hp
        · exact ⟨m, rfl⟩
      · simp only [Function.update_of_ne hoc] at hp
        exact ht.clients o ho p hp
    · simpa only [Function.update_of_ne (Ne.symm hc)] using ht.ofVm
  | @take c pkt rest hc hq =>
    refine ⟨ht.attached, ht.owned, ht.requesters, fun o ho => ?_, ht.clients, ht.ofVm, ?_⟩
    · have hoc : o ≠ c := by
        rintro rfl
        rw [(ht.unattached o ho).2] at hq
        cases hq
      simp only [Function.update_of_ne hoc]
      exact ht.unattached o ho
    · simpa only [Function.update_of_ne (Ne.symm hc)] using ht.forVm
  | reply hq _ _ hown htx _ hfor _ =>
    exact ht.deliver hq hown (by rw [htx]; exact ht.requesters) (ht.mem_attached hq) fun _ => hfor
  | refuse hc hq _ _ =>
    exact ht.deliver hq ht.owned ht.requesters (ht.mem_attached hq) fun h => absurd h hc
  | @forward c t r rest hc hq _ _ =>
    -- The transaction is opened for the client that has asked.
    refine ht.deliver hq ht.owned (fun t' c' h => ?_) ht.attached fun _ => .execute t r
    rw [UnorderedMap.lookup_insert_eq] at h
    split_ifs at h
    · rw [← Option.some.inj h]
      exact ⟨hc, ht.mem_attached hq⟩
    · exact ht.requesters t' c' h
  | @relay c t i out rest b hc hq hopen hsubs htx _ =>
    -- The table of subscriptions stays, and the transaction may be closed.
    refine ht.deliver hq ?_ (fun t' c' h => ?_) (ht.requesters t c hopen).2 fun h => absurd h hc
    · intro ch o ho
      rw [hsubs] at ho
      exact ht.owned ch o ho
    · rw [htx] at h
      split_ifs at h
      exact ht.requesters t' c' h
  | vanish hq _ =>
    refine ⟨ht.attached, ht.owned, ht.requesters, fun o ho => ?_, fun o ho p hp => ?_,
      fun p hp => ?_, ht.forVm⟩
    · have hov : o ≠ v := fun h => ho (h ▸ ht.attached)
      simp only [Net.received, Function.update_of_ne hov]
      exact ht.unattached o ho
    · simp only [Net.received, Function.update_of_ne ho] at hp
      exact ht.clients o ho p hp
    · simp only [Net.received, Function.update_self] at hp
      refine ht.ofVm p ?_
      rw [hq]
      exact List.mem_cons_of_mem _ hp
  | vm hout hloop _ =>
    refine ⟨ht.attached, ht.owned, ht.requesters, ht.unattached, ht.clients, fun p hp => ?_,
      ht.forVm⟩
    rcases List.mem_append.mp hp with hp | hp
    · exact ht.ofVm p (List.mem_append_left _ hp)
    · exact hloop.ofVm p hp
  | vmRecv hout hq hloop =>
    refine ⟨ht.attached, ht.owned, ht.requesters, fun o ho => ?_, ht.clients, fun p hp => ?_,
      fun p hp => ?_⟩
    · have hov : o ≠ v := fun h => ho (h ▸ ht.attached)
      simp only [Function.update_of_ne hov]
      exact ht.unattached o ho
    · rcases List.mem_append.mp hp with hp | hp
      · exact ht.ofVm p (List.mem_append_left _ hp)
      · exact hloop.ofVm p hp
    · simp only [Function.update_self] at hp
      refine ht.forVm p ?_
      rw [hq]
      exact List.mem_cons_of_mem _ hp
  | vmSend hout =>
    refine ⟨ht.attached, ht.owned, ht.requesters, fun o ho => ?_, fun o ho p hp => ?_, ?_,
      ht.forVm⟩
    · have hov : o ≠ v := fun h => ho (h ▸ ht.attached)
      simp only [Function.update_of_ne hov]
      exact ht.unattached o ho
    · simp only [Function.update_of_ne ho] at hp
      exact ht.clients o ho p hp
    · simp only [Function.update_self, List.append_assoc, List.singleton_append, ← hout]
      exact ht.ofVm
  | vmDrop hout _ _ =>
    refine ⟨ht.attached, ht.owned, ht.requesters, ht.unattached, ht.clients, fun p hp => ?_,
      ht.forVm⟩
    refine ht.ofVm p ?_
    rcases List.mem_append.mp hp with hp | hp
    · exact List.mem_append_left _ hp
    · rw [hout]
      exact List.mem_append_right _ (List.mem_cons_of_mem _ hp)
  | vmAbort f hout _ _ _ =>
    refine ⟨ht.attached, ht.owned, ht.requesters, ht.unattached, ht.clients, fun p hp => ?_,
      ht.forVm⟩
    -- What the VM had not sent is gone.
    simp only [List.append_nil] at hp
    exact ht.ofVm p (List.mem_append_left _ hp)

/-- The kinds of packets in every run. -/
theorem traffic_of_reach {env : ω} (hr : Reach (step v uuid) (start v env) s) : s.Traffic v := by
  refine hr.invariant (P := fun s => s.Traffic v) (traffic_start v env) ?_
  intro s a s' _ ht _ hstep
  exact ht.moves (moves_of_step ht hstep)

end Sys

end Ailoy
