import Ailoy.System.Linearizable
import Mathlib.Algebra.BigOperators.Group.Finset.Basic
import Mathlib.Algebra.Order.BigOperators.Group.Finset
import Mathlib.Data.Prod.Lex

/-!
# Progress

What happens when the clients make no more requests. As long as no packet of a request is lost and
the VM answers what it comes to, each step of the broker, of the VM, or of a client that reads its
mailbox lowers a rank (`rank_step`). First come the requests that the VM has not handled, then the
outputs that its call still owes, and then the packets on their way: a request moves on towards the
VM, an output turns into a packet, and a packet moves on towards its client.
-/

namespace Ailoy

open Transition

/-- The handling of a packet forgets no socket but the sender of a `disconnect`. -/
theorem Broker.Handles.mem_sockets {b : Broker} {c o : SocketName} {msg : Packet}
    {r : Broker × Option Send} (h : b.Handles c msg r) (ho : o ∈ b.sockets)
    (hkeep : o = c → msg.ptype ≠ .disconnect) : o ∈ r.1.sockets := by
  cases h with
  | disconnect hp => exact Finset.mem_erase.mpr ⟨fun heq => hkeep heq hp, ho⟩
  | connect | ignored => exact ho
  | subscribe | unsubscribe | execute | respondExecute => simpa using ho

/-- No packet of the VM is a request. -/
theorem Packet.OfVm.ptype_ne {p : Packet} (h : p.OfVm) : p.ptype ≠ .execute := by
  cases h with
  | output t i out => cases out <;> rintro ⟨⟩
  | _ => rintro ⟨⟩

/-- Whether the loop is still to be entered. -/
def Loop.imports {σ ω : Type} (l : Loop σ ω) : ℕ :=
  match l.activity with
  | .importing => 1
  | _ => 0

theorem Loop.imports_of_ne {σ ω : Type} {l : Loop σ ω} (h : l.activity ≠ .importing) :
    l.imports = 0 := by
  unfold imports
  split
  · exact absurd ‹_› h
  · rfl

/-- A VM that has not been stopped sends no `disconnect`. -/
theorem Loop.Moves.not_disconnect {σ ω : Type} {uuid : ℕ → TxId} {l l' : Loop σ ω}
    {a : LoopAct σ ω} {pkts : List Packet} (h : Loop.Moves uuid l a l' pkts)
    (hgo : l.activity ≠ .draining) : ∀ p ∈ pkts, p.ptype ≠ .disconnect := by
  intro p hp
  have hof : p.OfVm := h.ofVm p hp
  cases hof with
  | disconnect t =>
    have hnot : ∀ {vm : Vm σ ω} {mk : TxId → Instruction → Packet} {is : List Instruction},
        (∀ t' i, mk t' i ≠ .disconnect t) → .disconnect t ∉ (Vm.sendEach uuid vm mk is).2 := by
      intro vm mk is hmk hin
      obtain ⟨t', i, -, heq⟩ := Vm.mem_sendEach hin
      exact hmk t' i heq.symm
    have hsub : ∀ t' i, Packet.subscribe t' i ≠ .disconnect t := fun t' i h =>
      absurd (congrArg Packet.ptype h) (by rintro ⟨⟩)
    have hunsub : ∀ t' i, Packet.unsubscribe t' i ≠ .disconnect t := fun t' i h =>
      absurd (congrArg Packet.ptype h) (by rintro ⟨⟩)
    have hresp : ∀ {q : Packet}, q.ptype = .respondExecute → Packet.disconnect t ≠ q := by
      rintro q hq rfl
      cases hq
    cases h with
    | importModule mod => exact absurd hp (hnot hsub)
    | stop => exact absurd hp (hnot hunsub)
    | define =>
      rcases List.mem_append.mp hp with hp | hp
      · exact absurd hp (hnot hsub)
      · exact absurd (List.mem_singleton.mp hp) (hresp rfl)
    | delete =>
      rcases List.mem_append.mp hp with hp | hp
      · exact absurd hp (hnot hunsub)
      · exact absurd (List.mem_singleton.mp hp) (hresp rfl)
    | refuse => exact absurd (List.mem_singleton.mp hp) (hresp rfl)
    | next => exact absurd (List.mem_singleton.mp hp) (hresp rfl)
    | @finish c out s _ _ _ =>
      refine absurd (List.mem_singleton.mp hp) (hresp ?_)
      cases out <;> rfl
    | disconnect _ hact => exact absurd hact hgo
    | _ => cases hp
  | output t i out => cases out <;> rintro ⟨⟩
  | _ => rintro ⟨⟩

namespace Sys

variable {σ ω : Type} {v : SocketName} {uuid : ℕ → TxId} {s s' : Sys σ ω} {t : TxId}
  {es : List (SysEvent σ ω)}

/-! ## The system left alone -/

/-- Clients use fresh ids, no packet of a request is lost, and the VM answers the requests that it
comes to. -/
def Prompt (v : SocketName) (r : Recorded (Sys σ ω) (SysEvent σ ω)) (a : SysAct σ ω) : Prop :=
  Kept v r a ∧ ∀ q ∈ r.state.nextRequest v a, ∃ outs, r.state.loop.vm.Outputs q outs

/-- Nobody connects or sends a message, and no further module is imported. -/
def Inward : SysAct σ ω → Prop
  | .accept _ | .client _ _ | .vm (.importModule _) => False
  | _ => True

/-- A step of the system left alone, in which something happens. -/
def Settles (v : SocketName) (uuid : ℕ → TxId) (r : Recorded (Sys σ ω) (SysEvent σ ω))
    (a : SysAct σ ω) : Prop :=
  Prompt v r a ∧ Inward a ∧ step v uuid r.state a ≠ some r.state

/-! ## The broker listens to the VM -/

/-- The broker serves the VM's socket, and no packet on its way asks it to forget the socket. -/
structure Attended (v : SocketName) (s : Sys σ ω) : Prop where
  socket : v ∈ s.net.broker.sockets
  stays : ∀ p ∈ s.unheard v, p.ptype ≠ .disconnect

/-- The sockets that the broker serves after a step. -/
theorem mem_sockets_step {a : SysAct σ ω} (hstep : step v uuid s a = some s') {o : SocketName}
    (ho : o ∈ s.net.broker.sockets)
    (hkeep : ∀ msg rest, s.net.inbox o = msg :: rest → msg.ptype ≠ .disconnect)
    (ht : s.Traffic v) : o ∈ s'.net.broker.sockets := by
  by_cases hb : ∃ c, a = .broker c
  · obtain ⟨c, rfl⟩ := hb
    obtain ⟨net, hnet, rfl⟩ := Option.map_eq_some_iff.mp hstep
    rcases Net.recv_cases hnet with ⟨rfl, -⟩ | ⟨msg, rest, b, send, -, hq, hh, rfl⟩
    · exact ho
    · have hin := (Broker.handles_of_handle hh).mem_sockets ho fun heq => by
        subst heq
        exact hkeep msg rest hq
      simpa using hin
  · have hm := moves_of_step ht hstep
    generalize emits v uuid s a = es at hm
    cases hm with
    | accept => exact Finset.mem_insert_of_mem ho
    | reply | refuse | forward | relay | vanish => exact absurd ⟨_, rfl⟩ hb
    | _ => exact ho

/-- The VM's packets after a step of a VM that has not been stopped. -/
theorem Attended.moves (ha : s.Attended v) (hgo : s.loop.activity ≠ .draining) {a : SysAct σ ω}
    (hm : Moves v uuid s a es s') : ∀ p ∈ s'.unheard v, p.ptype ≠ .disconnect := by
  have hold := ha.stays
  have hrest : ∀ {c : SocketName} {msg : Packet} {rest : List Packet}, s.net.inbox c = msg :: rest →
      ∀ p ∈ Function.update s.net.inbox c rest v ++ s.out, p.ptype ≠ .disconnect := by
    intro c msg rest hq p hp
    refine hold p ?_
    rcases List.mem_append.mp hp with hp | hp
    · refine List.mem_append_left _ ?_
      by_cases hv : v = c
      · subst hv
        rw [Function.update_self] at hp
        rw [hq]
        exact List.mem_cons_of_mem _ hp
      · rwa [Function.update_of_ne hv] at hp
    · exact List.mem_append_right _ hp
  have hnew : ∀ {la : LoopAct σ ω} {loop : Loop σ ω} {pkts : List Packet},
      Loop.Moves uuid s.loop la loop pkts → s.out = [] →
      ∀ p ∈ s.net.inbox v ++ pkts, p.ptype ≠ .disconnect := by
    intro la loop pkts hloop hout p hp
    rcases List.mem_append.mp hp with hp | hp
    · exact hold p (List.mem_append_left _ hp)
    · exact hloop.not_disconnect hgo p hp
  cases hm with
  | @client c m hc _ =>
    simpa only [unheard, Function.update_of_ne (Ne.symm hc)] using hold
  | reply hq | refuse _ hq | forward _ hq | relay _ hq =>
    simpa only [unheard, Net.deliver_inbox, Net.received] using hrest hq
  | vanish hq => exact hrest hq
  | vm hout hloop => exact hnew hloop hout
  | vmRecv hout _ hloop => exact hnew hloop hout
  | vmSend hout =>
    simpa only [unheard, hout, Function.update_self, List.append_assoc, List.singleton_append]
      using hold
  | vmDrop hout =>
    intro p hp
    refine hold p ?_
    rcases List.mem_append.mp hp with hp | hp
    · exact List.mem_append_left _ hp
    · exact List.mem_append_right _ (by rw [hout]; exact List.mem_cons_of_mem _ hp)
  | vmAbort =>
    intro p hp
    simp only [unheard, List.append_nil] at hp
    exact hold p (List.mem_append_left _ hp)
  | _ => exact hold

variable {env : ω} {r : Recorded (Sys σ ω) (SysEvent σ ω)}

/-- The broker serves the VM's socket as long as the VM runs. -/
theorem attended_of_reach
    (hr : ReachVia (recordedStep v uuid) (Fair v) (recordedStart v env) r) : r.state.Attended v := by
  have hstart : (recordedStart v env : Recorded (Sys σ ω) _).state.Attended v :=
    ⟨Finset.mem_insert_self v _, fun p hp => absurd hp List.not_mem_nil⟩
  refine hr.invariant (P := fun r => r.state.Attended v) hstart ?_
  intro r a r' hreach ha hok hstep
  obtain ⟨hstep, -⟩ := record_eq_some_iff.mp hstep
  have ht : r.state.Traffic v := traffic_of_reach (hreach.state fun _ _ _ => trivial)
  have hgo := not_stopped_of_reach hreach
  refine ⟨mem_sockets_step hstep ha.socket (fun msg rest hq => ?_) ht,
    ha.moves (fun hact => hgo (.inl hact)) (moves_of_step ht hstep)⟩
  exact ha.stays msg (List.mem_append_left _ (by rw [hq]; exact .head _))

/-! ## The rank -/

section Queued

variable {S : Finset SocketName} {size : List Packet → ℕ} {f : SocketName → List Packet}
  {c : SocketName}

/-- The size of the queues of some sockets. -/
def queued (S : Finset SocketName) (size : List Packet → ℕ) (f : SocketName → List Packet) : ℕ :=
  ∑ c ∈ S, size (f c)

theorem queued_update (hc : c ∈ S) (q : List Packet) :
    queued S size (Function.update f c q) + size (f c) = queued S size f + size q := by
  have hothers : ∑ o ∈ S.erase c, size (Function.update f c q o) = ∑ o ∈ S.erase c, size (f o) :=
    Finset.sum_congr rfl fun o ho => by rw [Function.update_of_ne (Finset.ne_of_mem_erase ho)]
  unfold queued
  rw [← Finset.add_sum_erase S (fun o => size (Function.update f c q o)) hc,
    ← Finset.add_sum_erase S (fun o => size (f o)) hc, hothers, Function.update_self]
  omega

/-- How many requests a queue holds. -/
def requests (q : List Packet) : ℕ := (executeIds q).length

@[simp] theorem requests_nil : requests [] = 0 := rfl

theorem requests_append (q q' : List Packet) : requests (q ++ q') = requests q + requests q' := by
  unfold requests
  rw [executeIds_append, List.length_append]

theorem requests_cons (p : Packet) (q : List Packet) :
    requests (p :: q) = requests [p] + requests q := requests_append [p] q

@[simp] theorem requests_execute (t : TxId) (r : Request) : requests [.execute t r] = 1 := rfl

theorem requests_of_ptype {p : Packet} (hp : p.ptype ≠ .execute) : requests [p] = 0 := by
  simp [requests, executeIds, executeId_none_of_ptype hp]

end Queued

/-- The requests that the VM has not handled, counted once for each mailbox that they are still to
pass, and the imports. -/
def ahead (v : SocketName) (s : Sys σ ω) : ℕ :=
  2 * queued s.net.attached requests s.net.inbox + requests (s.net.mailbox v) + s.loop.imports

/-- The packets on their way, counted once for each queue that they are still to leave. -/
def inTransit (s : Sys σ ω) : ℕ :=
  2 * queued s.net.attached List.length s.net.inbox +
    queued s.net.attached List.length s.net.mailbox + 3 * s.out.length

/-- The rank of a state in which the call in the VM's loop has `n` outputs to go. -/
def rank (v : SocketName) (s : Sys σ ω) (n : ℕ) : ℕ ×ₗ ℕ ×ₗ ℕ :=
  toLex (s.ahead v, toLex (n, s.inTransit))

section Rank

variable {m n : ℕ}

theorem rank_lt_of_ahead (h : s'.ahead v < s.ahead v) : s'.rank v m < s.rank v n :=
  Prod.Lex.toLex_lt_toLex.mpr (.inl h)

theorem rank_lt_of_call (h : s'.ahead v ≤ s.ahead v) (hcall : m < n) :
    s'.rank v m < s.rank v n :=
  Prod.Lex.toLex_lt_toLex'.mpr ⟨h, fun _ => Prod.Lex.toLex_lt_toLex.mpr (.inl hcall)⟩

theorem rank_lt_of_inTransit (h : s'.ahead v ≤ s.ahead v) (hmove : s'.inTransit < s.inTransit) :
    s'.rank v n < s.rank v n :=
  Prod.Lex.toLex_lt_toLex'.mpr ⟨h, fun _ => Prod.Lex.toLex_lt_toLex'.mpr ⟨le_rfl, fun _ => hmove⟩⟩

end Rank

/-- What the broker does to a mailbox: it adds at most the packet. -/
theorem deliver_sizes {n : Net} {dest : SocketName} {pkt : Packet} (hdest : dest ∈ n.attached)
    (o : SocketName) :
    queued n.attached List.length (n.deliver dest pkt).1.mailbox ≤
        queued n.attached List.length n.mailbox + 1 ∧
      requests ((n.deliver dest pkt).1.mailbox o) ≤ requests (n.mailbox o) + requests [pkt] := by
  rw [Net.deliver_mailbox]
  split_ifs
  · constructor
    · have hsum := @queued_update _ List.length n.mailbox _ hdest (n.mailbox dest ++ [pkt])
      rw [List.length_append, List.length_singleton] at hsum
      omega
    · by_cases ho : o = dest
      · subst ho
        rw [Function.update_self, requests_append]
      · rw [Function.update_of_ne ho]
        omega
  · constructor <;> omega

/-- The broker takes a packet from a queue, and puts at most one in a mailbox. -/
theorem passed {c dest : SocketName} {msg pkt : Packet} {rest : List Packet} {b : Broker}
    (ht : s.Traffic v) (hq : s.net.inbox c = msg :: rest) (hdest : dest ∈ s.net.attached)
    (hs : s' = { s with net := ((s.net.received c b rest).deliver dest pkt).1 }) :
    s'.inTransit < s.inTransit ∧
      s'.ahead v + 2 * requests [msg] ≤ s.ahead v + requests [pkt] := by
  have hc : c ∈ s.net.attached := ht.mem_attached hq
  obtain ⟨hmail, hreq⟩ := @deliver_sizes (s.net.received c b rest) dest pkt hdest v
  have hlen := @queued_update _ List.length s.net.inbox _ hc rest
  have hasked := @queued_update _ requests s.net.inbox _ hc rest
  rw [hq, List.length_cons] at hlen
  rw [hq, requests_cons] at hasked
  subst hs
  simp only [inTransit, ahead, Net.deliver_inbox, Net.deliver_attached, Net.received] at *
  constructor <;> omega

/-- The broker answers, refuses or relays: no request is put in a mailbox. -/
theorem answered {c dest : SocketName} {msg pkt : Packet} {rest : List Packet} {b : Broker}
    (ht : s.Traffic v) (hq : s.net.inbox c = msg :: rest) (hdest : dest ∈ s.net.attached)
    (hpkt : pkt.ptype ≠ .execute)
    (hs : s' = { s with net := ((s.net.received c b rest).deliver dest pkt).1 }) :
    s'.ahead v ≤ s.ahead v ∧ s'.inTransit < s.inTransit := by
  obtain ⟨hmove, hahead⟩ := passed ht hq hdest hs
  rw [requests_of_ptype hpkt] at hahead
  exact ⟨by omega, hmove⟩

/-- A step that is not one of the VM's loop moves packets on. -/
theorem Moves.passes (ht : s.Traffic v) {a : SysAct σ ω} (hm : Moves v uuid s a es s')
    (hok : s.Healthy v a) (hin : Inward a) (hne : s' ≠ s) (hvm : ∀ la, a ≠ .vm la)
    (hrecv : a ≠ .vmRecv) : s'.ahead v ≤ s.ahead v ∧ s'.inTransit < s.inTransit := by
  cases hm with
  | idle => exact absurd rfl hne
  | accept | client => exact hin.elim
  | @take c pkt rest hc hq =>
    have hatt : c ∈ s.net.attached := by
      by_contra hno
      rw [(ht.unattached c hno).2] at hq
      cases hq
    have hlen := @queued_update _ List.length s.net.mailbox _ hatt rest
    rw [hq, List.length_cons] at hlen
    simp only [ahead, inTransit, Function.update_of_ne (Ne.symm hc)]
    omega
  | reply hq _ _ _ _ _ _ hresp =>
    exact answered ht hq (ht.mem_attached hq) (by rw [hresp]; rintro ⟨⟩) rfl
  | refuse hc hq => exact answered ht hq (ht.mem_attached hq) (by rintro ⟨⟩) rfl
  | relay hc hq hopen =>
    exact answered ht hq (ht.requesters _ _ hopen).2 (Packet.OfVm.output _ _ _).ptype_ne rfl
  | forward hc hq =>
    obtain ⟨hmove, hahead⟩ := passed ht hq ht.attached rfl
    rw [requests_execute] at hahead
    exact ⟨by omega, hmove⟩
  | @vanish t i out rest hq hopen =>
    have hlen := @queued_update _ List.length s.net.inbox _ ht.attached rest
    have hasked := @queued_update _ requests s.net.inbox _ ht.attached rest
    rw [hq, List.length_cons] at hlen
    rw [hq, requests_cons] at hasked
    simp only [ahead, inTransit, Net.received]
    omega
  | vm => exact absurd rfl (hvm _)
  | vmRecv => exact absurd rfl hrecv
  | @vmSend pkt rest hout =>
    have hpkt : requests [pkt] = 0 :=
      requests_of_ptype (ht.ofVm pkt (by rw [hout]; simp)).ptype_ne
    have hlen := @queued_update _ List.length s.net.inbox _ ht.attached (s.net.inbox v ++ [pkt])
    have hasked := @queued_update _ requests s.net.inbox _ ht.attached (s.net.inbox v ++ [pkt])
    rw [List.length_append, List.length_singleton] at hlen
    rw [requests_append, hpkt] at hasked
    simp only [ahead, inTransit, hout, List.length_cons]
    omega
  | vmDrop hout =>
    simp only [ahead, inTransit, hout, List.length_cons]
    omega
  | vmAbort f hout hsends hfull hact =>
    have hroom : (s.net.inbox v).length < Mailbox.limit := by
      have himp := hok.2.1
      simpa [Imports, hact] using himp
    omega

/-- The VM reads its mailbox: a request is no longer ahead, and a response is out of the way. -/
theorem recv_lower (ht : s.Traffic v) {n : ℕ} (howes : s.loop.Owes n)
    (houts : ∀ q ∈ s.nextRequest v (.vmRecv : SysAct σ ω), ∃ outs, s.loop.vm.Outputs q outs)
    (hstep : step v uuid s .vmRecv = some s') : ∃ m, s'.rank v m < s.rank v n ∧ s'.loop.Owes m := by
  obtain ⟨pkt, rest, pkts, hq, hloop, -, hout, hs'⟩ := loop_step_of_vmRecv hstep
  have hfor : pkt.ForVm := ht.forVm pkt (by rw [hq]; exact .head _)
  have hlen := @queued_update _ List.length s.net.mailbox _ ht.attached rest
  rw [hq, List.length_cons] at hlen
  cases howes with
  | importing hact | calling hact => simp [Loop.step, hact] at hloop
  | listening hact =>
    simp only [Loop.step, hact, Option.some.injEq] at hloop
    have himp : s.loop.imports = 0 := Loop.imports_of_ne (by rw [hact]; rintro ⟨⟩)
    by_cases hpt : pkt.ptype = .respond
    · obtain ⟨vm, hrecv⟩ : ∃ vm, s.loop.recv uuid pkt = (⟨vm, .listening⟩, []) :=
        Loop.recv_respond hfor hpt
      obtain ⟨hvm, rfl⟩ := Prod.mk.inj (hloop.symm.trans hrecv)
      rw [hvm] at hs'
      subst hs'
      refine ⟨0, rank_lt_of_inTransit ?_ ?_, .listening rfl⟩
      · have hmail : requests (pkt :: rest) = requests rest := by
          rw [requests_cons, requests_of_ptype (by rw [hpt]; rintro ⟨⟩), Nat.zero_add]
        simp only [ahead, Function.update_self, hq, hmail, himp]
        exact le_rfl
      · simp only [inTransit, hout]
        omega
    · obtain ⟨t, q, rfl, hreq⟩ := hfor.execute_of_ne hpt
      have hnext : q ∈ s.nextRequest v (.vmRecv : SysAct σ ω) := by
        simpa only [nextRequest, hact, hq, Option.mem_def] using hreq
      obtain ⟨outs, houts⟩ := houts q hnext
      have howes := @Loop.owes_recv _ _ uuid s.loop t q outs houts
      rw [hloop] at howes
      obtain ⟨hleft, m, hm⟩ := howes
      refine ⟨m, rank_lt_of_ahead ?_, hm⟩
      rw [hs']
      simp only [ahead, Function.update_self, hq, himp, Loop.imports_of_ne hleft]
      rw [requests_cons, requests_execute]
      omega

/-- The VM goes on: it enters its event loop, or makes an output of its call. -/
theorem vm_lower {n : ℕ} (howes : s.loop.Owes n) {la : LoopAct σ ω}
    (hin : Inward (.vm la : SysAct σ ω)) (hrun : Running (.vm la : SysAct σ ω))
    (hstep : step v uuid s (.vm la) = some s') : ∃ m, s'.rank v m < s.rank v n ∧ s'.loop.Owes m := by
  obtain ⟨pkts, hloop, -, hno, hout, hs'⟩ := loop_step_of_vm hstep
  cases la with
  | importModule => exact hin.elim
  | recv pkt => exact absurd rfl (hno pkt)
  | stop => exact absurd hrun Bool.false_ne_true
  | disconnect =>
    cases howes with
    | importing hact | listening hact | calling hact => simp [Loop.step, hact] at hloop
  | enter =>
    cases howes with
    | listening hact | calling hact => simp [Loop.step, hact] at hloop
    | importing hact =>
      simp only [Loop.step, hact, Option.some.injEq, Prod.mk.injEq] at hloop
      obtain ⟨hvm, rfl⟩ := hloop
      rw [← hvm] at hs'
      subst hs'
      refine ⟨0, rank_lt_of_ahead ?_, .listening rfl⟩
      simp only [ahead, Loop.imports, hact]
      omega
  | advance =>
    cases hact : s.loop.activity with
    | calling c =>
      obtain ⟨hleft, m, hlt, hm⟩ := howes.advance hact
      simp only [Loop.step, hact, Option.some.injEq] at hloop
      rw [hloop] at hleft hm
      refine ⟨m, rank_lt_of_call ?_ hlt, hm⟩
      rw [hs']
      simp only [ahead, Loop.imports_of_ne hleft]
      omega
    | _ => simp [Loop.step, hact] at hloop

/-- The variant of the system left alone: every step lowers the rank. -/
theorem rank_step (ht : s.Traffic v) {n : ℕ} (howes : s.loop.Owes n) {a : SysAct σ ω}
    (hok : s.Healthy v a) (houts : ∀ q ∈ s.nextRequest v a, ∃ outs, s.loop.vm.Outputs q outs)
    (hin : Inward a) (hne : s' ≠ s) (hstep : step v uuid s a = some s') :
    ∃ m, s'.rank v m < s.rank v n ∧ s'.loop.Owes m := by
  by_cases hvm : ∃ la, a = .vm la
  · obtain ⟨la, rfl⟩ := hvm
    exact vm_lower howes hin hok.2.2 hstep
  · by_cases hrecv : a = .vmRecv
    · subst hrecv
      exact recv_lower ht howes houts hstep
    · have hno : ∀ la, a ≠ .vm la := fun la hla => hvm ⟨la, hla⟩
      have hm := moves_of_step ht hstep
      obtain ⟨hahead, hmove⟩ := hm.passes ht hok hin hne hno hrecv
      refine ⟨n, rank_lt_of_inTransit hahead hmove, ?_⟩
      rw [(hm.loop_eq hok hno hrecv).1]
      exact howes

/-- The VM always has something to do, and brings every call to an end. -/
theorem owes_of_reach
    (hr : ReachVia (recordedStep v uuid) (Prompt v) (recordedStart v env) r) :
    ∃ n, r.state.loop.Owes n := by
  have hstart : ∃ n, (recordedStart v env : Recorded (Sys σ ω) _).state.loop.Owes n :=
    ⟨0, .importing rfl⟩
  refine hr.invariant (P := fun r => ∃ n, r.state.loop.Owes n) hstart ?_
  rintro r a r' hreach ⟨n, howes⟩ ⟨hok, houts⟩ hstep
  obtain ⟨hstep, -⟩ := record_eq_some_iff.mp hstep
  have ht : r.state.Traffic v := traffic_of_reach (hreach.state fun _ _ _ => trivial)
  by_cases hsame : r'.state = r.state
  · exact ⟨n, by rw [hsame]; exact howes⟩
  by_cases hin : Inward a
  · obtain ⟨m, -, hm⟩ := rank_step ht howes hok.1.2 houts hin hsame hstep
    exact ⟨m, hm⟩
  · by_cases hvm : ∃ mod, a = .vm (.importModule mod)
    · obtain ⟨mod, rfl⟩ := hvm
      obtain ⟨pkts, hloop, -⟩ := loop_step_of_vm hstep
      cases howes with
      | importing hact =>
        simp only [Loop.step, hact, Option.some.injEq, Prod.mk.injEq] at hloop
        exact ⟨0, .importing (by rw [← hloop.1])⟩
      | listening hact | calling hact => simp [Loop.step, hact] at hloop
    · have hno : ∀ la, a ≠ .vm la := by
        rintro la rfl
        cases la with
        | importModule mod => exact hvm ⟨mod, rfl⟩
        | _ => exact hin trivial
      have hrecv : a ≠ .vmRecv := by
        rintro rfl
        exact hin trivial
      refine ⟨n, ?_⟩
      rw [((moves_of_step ht hstep).loop_eq hok.1.2 hno hrecv).1]
      exact howes

end Sys

end Ailoy
