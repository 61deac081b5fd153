import Ailoy.System.Progress

/-!
# Coming to rest

By the rank of its states, a system that is left alone comes to rest after finitely many steps, in
whatever order they are taken. It does not come to rest too early, with everyone waiting for someone
else: the clients can always read, so the broker can always pass on what the VM has sent, so the VM
can always send, and go on. At rest every request has been answered in full, unless the broker has
forgotten the socket of its client, or the VM is at a request that it never answers
(`comes_to_rest`).
-/

namespace Ailoy

open Transition

/-- What the handling of a packet other than a request sends: an answer, or a response to the
requester of an open transaction. -/
theorem Broker.Handles.sends {b : Broker} {c : SocketName} {msg : Packet} {r : Broker × Option Send}
    (h : b.Handles c msg r) (hp : msg.ptype ≠ .execute) :
    (∀ pkt, r.2 = some (.reply pkt) → pkt.ptype = .respond) ∧
      ∀ target, r.2 = some (.forward target) → ∃ t, b.transactions.lookup t = some target := by
  cases h with
  | connect | disconnect =>
    refine ⟨?_, ?_⟩
    · rintro pkt ⟨⟩
      rfl
    · rintro target ⟨⟩
  | ignored => exact ⟨by rintro pkt ⟨⟩, by rintro target ⟨⟩⟩
  | @subscribe t ch _ _ _ =>
    obtain ⟨pkt, hreply, -, hpt⟩ := onSubscribe_reply b c t ch
    rw [hreply]
    refine ⟨?_, ?_⟩
    · rintro pkt' ⟨⟩
      exact hpt
    · rintro target ⟨⟩
  | @unsubscribe t ch _ _ _ =>
    obtain ⟨pkt, hreply, -, hpt⟩ := onUnsubscribe_reply b c t ch
    rw [hreply]
    refine ⟨?_, ?_⟩
    · rintro pkt' ⟨⟩
      exact hpt
    · rintro target ⟨⟩
  | execute hexec => exact absurd hexec hp
  | @respondExecute t finish _ _ _ =>
    unfold onRespondExecute
    cases hopen : b.transactions.lookup t with
    | none => exact ⟨by rintro pkt ⟨⟩, by rintro target ⟨⟩⟩
    | some target =>
      refine ⟨fun pkt hpkt => ?_, fun target' htarget => ⟨t, ?_⟩⟩
      · cases finish <;> cases hpkt
      · rw [hopen]
        cases finish <;> cases htarget <;> rfl

/-- The broker handles what the VM sends. -/
theorem Broker.handle_ofVm (b : Broker) (c : SocketName) {msg : Packet} (h : msg.OfVm) :
    ∃ r, b.handle c msg = .ok r := by
  cases h with
  | subscribe t i => exact ⟨_, handle_subscribe b c t i⟩
  | unsubscribe t i => exact ⟨_, handle_unsubscribe b c t i⟩
  | disconnect t => exact ⟨_, handle_disconnect b c t⟩
  | output t i out =>
    cases out with
    | ok val fin => exact ⟨_, handle_respondExecute b c t i fin val⟩
    | error e => exact ⟨_, handle_respondExecuteError b c t i e.reason⟩

/-- The broker handles what clients send. -/
theorem Broker.handle_clientMsg (b : Broker) (c : SocketName) (m : ClientMsg) :
    ∃ r, b.handle c m.packet = .ok r := by
  cases m with
  | connect t => exact ⟨_, handle_connect b c t⟩
  | disconnect t => exact ⟨_, handle_disconnect b c t⟩
  | execute t r => exact ⟨_, handle_execute b c t r⟩

namespace Sys

variable {σ ω : Type} {v : SocketName} {uuid : ℕ → TxId} {s s' : Sys σ ω} {t : TxId} {env : ω}
  {r : Recorded (Sys σ ω) (SysEvent σ ω)}

/-! ## At rest -/

/-- When the system is left alone, nothing happens any more. -/
def AtRest (v : SocketName) (uuid : ℕ → TxId) (r : Recorded (Sys σ ω) (SysEvent σ ω)) : Prop :=
  Stuck (recordedStep v uuid) (Settles v uuid) r

/-- At rest, a step that may be taken changes nothing. -/
theorem AtRest.same (h : AtRest v uuid r) {a : SysAct σ ω} (hok : Prompt v r a) (hin : Inward a)
    (hstep : step v uuid r.state a = some s') : s' = r.state := by
  by_contra hne
  have hsome : step v uuid r.state a ≠ some r.state := by
    rw [hstep]
    exact fun heq => hne (Option.some.inj heq)
  have hnone := h a ⟨hok, hin, hsome⟩
  simp [recordedStep, record, hstep] at hnone

/-- The reading of a mailbox, a step of the broker, or a send of the VM may be taken when there is
room for what it sends. -/
theorem prompt_of_room {a : SysAct σ ω}
    (ha : (∃ c, a = .take c) ∨ (∃ c, a = .broker c) ∨ a = .vmSend)
    (himp : r.state.Imports v a) (hroom : r.state.Lossless v a) : Prompt v r a := by
  rcases ha with ⟨c, rfl⟩ | ⟨c, rfl⟩ | rfl <;>
    exact ⟨⟨⟨rfl, ⟨by rintro q ⟨⟩, rfl⟩, himp, rfl⟩, hroom⟩, by rintro q ⟨⟩⟩

/-- What a step of the broker sends. -/
theorem sends_broker {c : SocketName} {x : Packet × List Packet}
    (hx : x ∈ s.sends v (.broker c : SysAct σ ω)) :
    ∃ msg rest b send, s.net.inbox c = msg :: rest ∧ s.net.broker.handle c msg = .ok (b, send) ∧
      ((send = some (.reply x.1) ∧ x.2 = s.net.mailbox c) ∨
        ∃ target, send = some (.forward target) ∧ x.2 = s.net.mailbox target) := by
  simp only [sends] at hx
  split_ifs at hx with hsock
  · cases hq : s.net.inbox c with
    | nil => simp [hq] at hx
    | cons msg rest =>
      simp only [hq] at hx
      cases hh : s.net.broker.handle c msg with
      | error f => simp [hh] at hx
      | ok res =>
        obtain ⟨b, send⟩ := res
        refine ⟨msg, rest, b, send, rfl, hh, ?_⟩
        rcases send with _ | ⟨pkt | target⟩
        · simp [hh] at hx
        · simp only [hh, Option.mem_def, Option.some.injEq] at hx
          subst hx
          exact .inl ⟨rfl, rfl⟩
        · simp only [hh, Option.mem_def, Option.some.injEq] at hx
          subst hx
          exact .inr ⟨target, rfl, rfl⟩
  · cases hx

/-- The broker takes the first message of a socket that it serves. -/
theorem broker_takes {c : SocketName} {msg : Packet} {rest : List Packet}
    {res : Broker × Option Send} (hsock : c ∈ s.net.broker.sockets) (hq : s.net.inbox c = msg :: rest)
    (hh : s.net.broker.handle c msg = .ok res) :
    ∃ s', step v uuid s (.broker c) = some s' ∧ s'.net.inbox c = rest := by
  obtain ⟨b, send⟩ := res
  refine ⟨{ s with net := Net.dispatch (s.net.received c b rest) c msg send }, ?_, ?_⟩
  · simp only [step, Net.recv, if_pos hsock, hq, Mailbox.get, hh, Option.map_some]
    rfl
  · rcases send with _ | ⟨pkt | target⟩ <;>
      simp only [Net.dispatch, Net.deliver_inbox, Net.received, Function.update_self]

section AtRest

variable (hrest : AtRest v uuid r) (ht : r.state.Traffic v)

include hrest

/-- The clients have read their mailboxes. -/
theorem AtRest.mailbox {c : SocketName} (hc : c ≠ v) : r.state.net.mailbox c = [] := by
  cases hq : r.state.net.mailbox c with
  | nil => rfl
  | cons pkt rest =>
    have hok : Prompt v r (.take c) := prompt_of_room (.inl ⟨c, rfl⟩) rfl (by rintro x ⟨⟩)
    have hstep : step v uuid r.state (.take c) = some { r.state with
        net := { r.state.net with mailbox := Function.update r.state.net.mailbox c rest } } := by
      simp only [step, if_neg hc, Net.take, hq, Mailbox.get]
    have hsame := congrArg (fun s => s.net.mailbox c) (hrest.same hok trivial hstep)
    simp only [Function.update_self, hq] at hsame
    exact absurd hsame (List.cons_ne_self pkt rest).symm

include ht

/-- The broker has handled what the VM has sent: the mailboxes that it passes it on to are empty. -/
theorem AtRest.inbox_vm (ha : r.state.Attended v) : r.state.net.inbox v = [] := by
  cases hq : r.state.net.inbox v with
  | nil => rfl
  | cons msg rest =>
    have hof : msg.OfVm := ht.ofVm msg (List.mem_append_left _ (by rw [hq]; exact .head _))
    obtain ⟨res, hh⟩ := r.state.net.broker.handle_ofVm v hof
    have hroom : r.state.Lossless v (.broker v) := by
      intro x hx hpt
      obtain ⟨msg', rest', b, send, hq', hh', hsend⟩ := sends_broker hx
      obtain ⟨rfl, -⟩ := List.cons.inj (hq.symm.trans hq')
      obtain ⟨hreply, hforward⟩ := (Broker.handles_of_handle hh').sends hof.ptype_ne
      rcases hsend with ⟨hsend, -⟩ | ⟨target, hsend, hbox⟩
      · rw [hreply x.1 hsend] at hpt
        rcases hpt with hpt | hpt <;> cases hpt
      · obtain ⟨t, hopen⟩ := hforward target hsend
        rw [hbox, hrest.mailbox (ht.requesters t target hopen).1]
        exact Nat.zero_lt_succ _
    have hok : Prompt v r (.broker v) := prompt_of_room (.inr (.inl ⟨v, rfl⟩)) rfl hroom
    obtain ⟨s', hstep, hin⟩ := @broker_takes _ _ v uuid _ _ _ _ _ ha.socket hq hh
    rw [hrest.same hok trivial hstep, hq] at hin
    exact absurd hin.symm (List.cons_ne_self msg rest).symm

/-- The VM has sent what it has made. -/
theorem AtRest.out (ha : r.state.Attended v) : r.state.out = [] := by
  cases hout : r.state.out with
  | nil => rfl
  | cons pkt rest =>
    have hnil := hrest.inbox_vm ht ha
    have hempty : ([] : List Packet).length < Mailbox.limit := Nat.zero_lt_succ _
    have hroom : r.state.Lossless v .vmSend := by
      intro x hx _
      simp only [sends, hout, Option.mem_def, Option.some.injEq] at hx
      rw [← hx, hnil]
      exact hempty
    have himp : r.state.Imports v .vmSend := by
      simp only [Imports, hnil]
      split <;> rfl
    have hok : Prompt v r .vmSend := prompt_of_room (.inr (.inr rfl)) himp hroom
    obtain ⟨s', hstep, hrest'⟩ : ∃ s', step v uuid r.state .vmSend = some s' ∧ s'.out = rest := by
      simp only [step, vmSend, hout, Net.send, if_pos ht.attached, hnil,
        Mailbox.set_of_lt hempty]
      exact ⟨_, rfl, rfl⟩
    rw [hrest.same hok trivial hstep, hout] at hrest'
    exact absurd hrest'.symm (List.cons_ne_self pkt rest).symm

/-- The VM waits in its event loop. -/
theorem AtRest.listening (ha : r.state.Attended v) {n : ℕ} (howes : r.state.loop.Owes n) :
    r.state.loop.activity = .listening := by
  have hout := hrest.out ht ha
  cases howes with
  | listening hact => exact hact
  | importing hact =>
    have hok : Prompt v r (.vm .enter) :=
      ⟨⟨⟨rfl, ⟨by rintro q ⟨⟩, rfl⟩, rfl, rfl⟩, by rintro x ⟨⟩⟩, by rintro q ⟨⟩⟩
    obtain ⟨s', hstep, hact'⟩ : ∃ s', step v uuid r.state (.vm .enter) = some s' ∧
        s'.loop.activity = .listening := by
      simp only [step, hout, Loop.step, hact, Option.map_some]
      exact ⟨_, rfl, rfl⟩
    rw [hrest.same hok trivial hstep, hact] at hact'
    cases hact'
  | @calling c outs s hact hyields =>
    have howes : r.state.loop.Owes outs.length := .calling hact hyields
    have hret : r.state.Returns v (.vm .advance) := by
      refine ⟨by rintro q ⟨⟩, ?_⟩
      simp only [hact]
      exact howes.returned hact
    have hok : Prompt v r (.vm .advance) :=
      ⟨⟨⟨rfl, hret, rfl, rfl⟩, by rintro x ⟨⟩⟩, by rintro q ⟨⟩⟩
    have hstep : step v uuid r.state (.vm .advance) = some { r.state with
        loop := (r.state.loop.advance c).1, out := (r.state.loop.advance c).2 } := by
      simp only [step, hout, Loop.step, hact, Option.map_some]
    obtain ⟨-, m, hlt, hm⟩ := howes.advance hact
    have hsame : (r.state.loop.advance c).1 = r.state.loop :=
      congrArg Sys.loop (hrest.same hok trivial hstep)
    rw [hsame] at hm
    exact absurd (hm.unique howes) (Nat.ne_of_lt hlt)

/-- The VM has read its mailbox, if it answers the request that it is at. -/
theorem AtRest.mailbox_vm (ha : r.state.Attended v) {n : ℕ} (howes : r.state.loop.Owes n)
    (houts : ∀ q ∈ r.state.nextRequest v .vmRecv, ∃ outs, r.state.loop.vm.Outputs q outs) :
    r.state.net.mailbox v = [] := by
  cases hq : r.state.net.mailbox v with
  | nil => rfl
  | cons pkt rest =>
    have hact := hrest.listening ht ha howes
    have hout := hrest.out ht ha
    have hret : r.state.Returns v .vmRecv := by
      refine ⟨fun q hnext => ?_, rfl⟩
      obtain ⟨outs, h⟩ := houts q hnext
      exact h.returns
    have hok : Prompt v r .vmRecv := ⟨⟨⟨rfl, hret, rfl, rfl⟩, by rintro x ⟨⟩⟩, houts⟩
    obtain ⟨s', hstep, hrest'⟩ : ∃ s', step v uuid r.state .vmRecv = some s' ∧
        s'.net.mailbox v = rest := by
      simp only [step, vmRecv, hout, Net.take, hq, Mailbox.get, Loop.step, hact, Option.map_some]
      exact ⟨_, rfl, Function.update_self ..⟩
    rw [hrest.same hok trivial hstep, hq] at hrest'
    exact absurd hrest'.symm (List.cons_ne_self pkt rest).symm

/-- The broker has handled what the clients have sent through the sockets that it serves. -/
theorem AtRest.inbox (ha : r.state.Attended v) (hmail : r.state.net.mailbox v = [])
    {c : SocketName} (hsock : c ∈ r.state.net.broker.sockets) : r.state.net.inbox c = [] := by
  by_cases hc : c = v
  · rw [hc]
    exact hrest.inbox_vm ht ha
  cases hq : r.state.net.inbox c with
  | nil => rfl
  | cons msg rest =>
    obtain ⟨m, rfl⟩ := ht.clients c hc msg (by rw [hq]; exact .head _)
    obtain ⟨res, hh⟩ := r.state.net.broker.handle_clientMsg c m
    have hroom : r.state.Lossless v (.broker c) := by
      intro x hx _
      have hempty : ∀ o, r.state.net.mailbox o = [] := fun o =>
        if ho : o = v then by rw [ho, hmail] else hrest.mailbox ho
      obtain ⟨-, -, -, -, -, -, ⟨-, hbox⟩ | ⟨target, -, hbox⟩⟩ := sends_broker hx <;>
        rw [hbox, hempty] <;> exact Nat.zero_lt_succ _
    have hok : Prompt v r (.broker c) := prompt_of_room (.inr (.inl ⟨c, rfl⟩)) rfl hroom
    obtain ⟨s', hstep, hin⟩ := @broker_takes _ _ v uuid _ _ _ _ _ hsock hq hh
    rw [hrest.same hok trivial hstep, hq] at hin
    exact absurd hin.symm (List.cons_ne_self m.packet rest).symm

end AtRest

/-- A request that is still in the mailbox of a broker's socket is the one that its client has
made. -/
theorem requested_of_inbox
    (hr : ReachVia (recordedStep v uuid) (Kept v) (recordedStart v env) r) {c o : SocketName}
    {q : Request} (hreq : .requested c t q ∈ r.history) {p : Packet} (hp : p ∈ r.state.net.inbox o)
    (hid : p.executeId = some t) : o = c ∧ p = .execute t q := by
  have hasked : p ∈ (tx v t r.state r.history).asked o :=
    List.mem_filter.mpr ⟨hp, decide_eq_true hid⟩
  have hmem : (c, q) ∈ (tx v t r.state r.history).requests := mem_requestsOf hreq
  have hstage := stage_of_reach hr t
  generalize tx v t r.state r.history = x at *
  cases hstage with
  | waiting c' q' =>
    obtain ⟨rfl, rfl⟩ := Prod.mk.inj (List.mem_singleton.mp hmem)
    have hin : p ∈ only c [Packet.execute t q] o := hasked
    obtain ⟨rfl, hone⟩ := mem_only hin
    exact ⟨rfl, List.mem_singleton.mp hone⟩
  | _ => cases hasked

/-- At rest, a request has been answered, or the broker does not serve the socket of its client any
more. -/
theorem AtRest.handed (hrest : AtRest v uuid r)
    (hr : ReachVia (recordedStep v uuid) (Prompt v) (recordedStart v env) r)
    (houts : ∀ q ∈ r.state.nextRequest v .vmRecv, ∃ outs, r.state.loop.vm.Outputs q outs)
    {c : SocketName} {q : Request} (hreq : .requested c t q ∈ r.history) :
    Handed c t q r.history ∨
      c ∉ r.state.net.broker.sockets ∧ .execute t q ∈ r.state.net.inbox c := by
  have hkept := hr.mono fun _ _ hok => hok.1
  have ht : r.state.Traffic v := traffic_of_reach (hr.state fun _ _ _ => trivial)
  have ha := attended_of_reach (hkept.mono fun _ _ hok => hok.1)
  obtain ⟨n, howes⟩ := owes_of_reach hr
  have hmail := hrest.mailbox_vm ht ha howes houts
  by_cases hin : .execute t q ∈ r.state.net.inbox c
  · refine .inr ⟨fun hsock => ?_, hin⟩
    rw [hrest.inbox ht ha hmail hsock] at hin
    cases hin
  · refine .inl (Settled.handed hkept ⟨fun o _ p hp hcon => ?_, fun o _ p hp => ?_, ?_, ?_⟩ hreq)
    · by_cases ho : o = v
      · rw [ho, hrest.inbox_vm ht ha] at hp
        cases hp
      · obtain ⟨m, rfl⟩ := ht.clients o ho p hp
        have hid : m.packet.executeId = some t :=
          hcon.resolve_right (not_responds_of_ptype (by cases m <;> rintro ⟨⟩))
        obtain ⟨rfl, hpkt⟩ := requested_of_inbox hkept hreq hp hid
        rw [hpkt] at hp
        exact hin hp
    · by_cases ho : o = v
      · rw [ho, hmail] at hp
        cases hp
      · rw [hrest.mailbox ho] at hp
        cases hp
    · rw [hrest.out ht ha]
      rintro p ⟨⟩
    · have hnone : callOf t r.state.loop = none := by
        simp only [callOf, hrest.listening ht ha howes]
      rw [hnone]
      rfl

/-- The client `c` calls `count`, and disconnects at once. -/
def leavingRun : List (SysAct OperatorState Unit) :=
  [.client "c" (.execute "t" (.callFunction "count" none)), .client "c" (.disconnect "d")]

end Sys

end Ailoy
