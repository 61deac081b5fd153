import Ailoy.System.Answered
import Ailoy.System.Order
import Ailoy.Vm.Service

/-!
# Linearizability

To its clients the VM is a sequential object, whatever the clients, the broker, and the VM do at the
same time (`linearizable`): the answers that the clients get are those of a VM that serves one
request after the other (`Tables.Serves`). The requests are served in an order that respects time,
as far as clients can tell: a request that was made after the last response of another one had been
taken is served after it, and so is one that the same client made later. `HasServed` is the invariant
of the VM's side. It says that the tables are those that the requests so far lead to, and what is
owed while a call is in the loop.
-/

namespace Ailoy

open SequentialObject Transition

/-- Operations of the VM: transactions, their requests, and the answers. -/
abbrev Operations := List (TxId × Request × List Output)

theorem Request.filled_filled (r : Request) : r.filled.filled = r.filled := by
  cases r <;> rfl

namespace Sys

variable {σ ω : Type} {v : SocketName} {uuid : ℕ → TxId} {s s' : Sys σ ω} {t : TxId}
  {h es : List (SysEvent σ ω)}

/-! ## The side of the VM -/

/-- What the operations are, by their transactions and requests. -/
def requestsIn (ops : Operations) : List (TxId × Request) := ops.map fun x => (x.1, x.2.1)

/-- What the VM is doing besides the operations that it has served: nothing, or a call. -/
inductive Busy (s : Sys σ ω) (h : List (SysEvent σ ω)) (ops : Operations) : Prop
  | importing : s.loop.activity = .importing → ops = [] → served h = [] → Busy s h ops
  | listening : s.loop.activity = .listening → served h = requestsIn ops → Busy s h ops
  | calling {c : Call σ} {q : Request} {outs : List Output} {pkt : Packet} :
      s.loop.activity = .calling c → served h = requestsIn ops ++ [(c.txId, q)] →
      (pkt, s.loop.vm) ∈ handledOf c.txId h → s.loop.vm.Pending q c outs → Busy s h ops

/-- The VM has served the operations, from the tables `b` on. -/
structure HasServed (b : Tables σ ω) (s : Sys σ ω) (h : List (SysEvent σ ω)) (ops : Operations) :
    Prop where
  legal : Legal Tables.Serves b (ops.map Prod.snd) s.loop.vm.tables
  answered : ∀ t q outs, (t, q, outs) ∈ ops →
    ∃ pkt vm, (pkt, vm) ∈ handledOf t h ∧ vm.Outputs q outs
  busy : Busy s h ops

theorem mem_handledOf_append {x : Packet × Vm σ ω} (hx : x ∈ handledOf t h) :
    x ∈ handledOf t (h ++ es) := by
  rw [handledOf_append]
  exact List.mem_append_left _ hx

theorem requestsIn_concat (ops : Operations) (q : Request) (outs : List Output) :
    requestsIn (ops ++ [(t, q, outs)]) = requestsIn ops ++ [(t, q)] := by
  simp [requestsIn]

/-- One more operation, which ends in the event loop. -/
theorem HasServed.concat {b : Tables σ ω} {ops : Operations} (hs : HasServed b s h ops) {q : Request}
    {outs : List Output} {pkt : Packet} (hact : s'.loop.activity = .listening)
    (hserved : served (h ++ es) = requestsIn ops ++ [(t, q)])
    (hhandled : (pkt, s.loop.vm) ∈ handledOf t (h ++ es))
    (hserves : s.loop.vm.tables.Serves q outs s'.loop.vm.tables) :
    HasServed b s' (h ++ es) (ops ++ [(t, q, outs)]) := by
  refine ⟨?_, fun t' q' outs' hmem => ?_, .listening hact ?_⟩
  · rw [List.map_append]
    exact hs.legal.concat hserves
  · rcases List.mem_append.mp hmem with hmem | hmem
    · obtain ⟨pkt', vm, hin, houts⟩ := hs.answered t' q' outs' hmem
      exact ⟨pkt', vm, mem_handledOf_append hin, houts⟩
    · obtain ⟨rfl, heq⟩ := Prod.mk.inj (List.mem_singleton.mp hmem)
      obtain ⟨rfl, rfl⟩ := Prod.mk.inj heq
      exact ⟨pkt, s.loop.vm, hhandled, Vm.outputs_of_serves hserves⟩
  · rw [hserved, requestsIn_concat]

/-- The operations stay as they are when the tables do. -/
theorem HasServed.keep {b : Tables σ ω} {ops : Operations} (hs : HasServed b s h ops)
    (htables : s'.loop.vm.tables = s.loop.vm.tables) (hbusy : Busy s' (h ++ es) ops) :
    HasServed b s' (h ++ es) ops := by
  refine ⟨by rw [htables]; exact hs.legal, fun t q outs hmem => ?_, hbusy⟩
  obtain ⟨pkt, vm, hin, houts⟩ := hs.answered t q outs hmem
  exact ⟨pkt, vm, mem_handledOf_append hin, houts⟩

/-- A step of another party changes nothing of it. -/
theorem HasServed.other {b : Tables σ ω} {ops : Operations} (hs : HasServed b s h ops)
    (hloop : s'.loop = s.loop) (hserved : served es = []) : HasServed b s' (h ++ es) ops := by
  have hall : served (h ++ es) = served h := by rw [served_append, hserved, List.append_nil]
  refine hs.keep (by rw [hloop]) ?_
  cases hs.busy with
  | importing hact hops hnone => exact .importing (by rw [hloop]; exact hact) hops (hall.trans hnone)
  | listening hact hreqs => exact .listening (by rw [hloop]; exact hact) (hall.trans hreqs)
  | @calling c q outs pkt hact hreqs hin hpend =>
    have hin' : (pkt, s'.loop.vm) ∈ handledOf c.txId (h ++ es) := by
      rw [hloop]
      exact mem_handledOf_append hin
    exact .calling (by rw [hloop]; exact hact) (hall.trans hreqs) hin' (by rw [hloop]; exact hpend)

/-- A step of the operator of a call: one output more, or the end of the operation. -/
theorem HasServed.advance {b : Tables σ ω} {ops : Operations} (hs : HasServed b s h ops) {c : Call σ}
    {pkts : List Packet} (hact : s.loop.activity = .calling c)
    (hadv : s.loop.advance c = (s'.loop, pkts))
    (hret : Vm.returned (c.code.step c.state) = true) :
    ∃ ops', HasServed b s' (h ++ pkts.map .produced) ops' := by
  have hall : served (h ++ pkts.map (.produced : Packet → SysEvent σ ω)) = served h := by
    rw [served_append, served_produced, List.append_nil]
  cases hs.busy with
  | importing hact' => cases hact.symm.trans hact'
  | listening hact' => cases hact.symm.trans hact'
  | @calling c' q outs pkt hact' hreqs hin hpend =>
    obtain rfl : c = c' := Activity.calling.inj (hact.symm.trans hact')
    cases hstep : c.code.step c.state with
    | error f =>
      rw [hstep] at hret
      cases hret
    | ok res =>
      obtain ⟨out, state⟩ := res
      by_cases hfin : out.final = true
      · -- The operator is done.
        have hloop : s'.loop = ⟨s.loop.vm.store c.code state c.site, .listening⟩ := by
          have hfst : s'.loop = (s.loop.advance c).1 := by rw [hadv]
          rw [hfst]
          cases out with
          | error e => simp only [Loop.advance, hstep]
          | ok val fin =>
            obtain rfl : fin = true := hfin
            simp only [Loop.advance, hstep, if_true]
        have hserves : s.loop.vm.tables.Serves q (outs ++ [out]) s'.loop.vm.tables := by
          rw [hloop]
          exact hpend.finish hstep hfin
        exact ⟨_, hs.concat (by rw [hloop]) (hall.trans hreqs) (mem_handledOf_append hin) hserves⟩
      · cases out with
        | error e => exact absurd rfl hfin
        | ok val fin =>
          obtain rfl : fin = false := by simpa [Output.final] using hfin
          have hloop : s'.loop =
              ⟨s.loop.vm, .calling { c with sequence := c.sequence + 1, state }⟩ := by
            have hfst : s'.loop = (s.loop.advance c).1 := by rw [hadv]
            rw [hfst]
            simp only [Loop.advance, hstep, Bool.false_eq_true, if_false]
          have hin' : (pkt, s'.loop.vm) ∈ handledOf c.txId (h ++ pkts.map .produced) := by
            rw [hloop]
            exact mem_handledOf_append hin
          have hpend' : s'.loop.vm.Pending q { c with sequence := c.sequence + 1, state }
              (outs ++ [.ok val false]) := by
            rw [hloop]
            exact hpend.next hstep
          have hact'' : s'.loop.activity = .calling { c with sequence := c.sequence + 1, state } := by
            rw [hloop]
          exact ⟨ops, hs.keep (by rw [hloop]) (.calling hact'' (hall.trans hreqs) hin' hpend')⟩

/-- The handling of a packet in the event loop: an operation, the start of one, or a response. -/
theorem HasServed.handle {b : Tables σ ω} {ops : Operations} (hs : HasServed b s h ops) {pkt : Packet}
    {pkts : List Packet} (hact : s.loop.activity = .listening) (hfor : pkt.ForVm)
    (hrecv : s.loop.recv uuid pkt = (s'.loop, pkts))
    (hret : ∀ q ∈ pkt.request?, s.loop.vm.Returns q = true) :
    ∃ ops', HasServed b s' (h ++ .handled pkt s.loop.vm s'.loop.vm :: pkts.map .produced) ops' := by
  have hreqs : served h = requestsIn ops := by
    cases hs.busy with
    | importing hact' => cases hact.symm.trans hact'
    | listening _ hreqs => exact hreqs
    | calling hact' => cases hact.symm.trans hact'
  have hloop : s'.loop = (s.loop.recv uuid pkt).1 := by rw [hrecv]
  -- What else a step emits is neither handled nor served.
  have hserved : served (h ++ .handled pkt s.loop.vm s'.loop.vm :: pkts.map .produced) =
      served h ++ served [.handled pkt s.loop.vm s'.loop.vm] := by
    rw [served_append, ← List.singleton_append, served_append, served_produced, List.append_nil]
  by_cases hpt : pkt.ptype = .respond
  · obtain ⟨ids, hkeep⟩ : ∃ ids, s.loop.vm.onRecv uuid pkt =
        .ok ({ s.loop.vm with expectedResponses := ids }, [], none) :=
      Loop.onRecv_respond hfor hpt
    simp only [Loop.recv, hkeep] at hloop
    have hnone : served [SysEvent.handled pkt s.loop.vm s'.loop.vm] = [] := by
      have hid : pkt.executeId = none := executeId_none_of_ptype (by rw [hpt]; rintro ⟨⟩)
      simp [served, hid]
    refine ⟨ops, hs.keep (by rw [hloop]; rfl) (.listening (by rw [hloop]) ?_)⟩
    rw [hserved, hnone, List.append_nil, hreqs]
  · obtain ⟨t, q, rfl, hq⟩ := hfor.execute_of_ne hpt
    have hone : served [SysEvent.handled (.execute t q) s.loop.vm s'.loop.vm] = [(t, q)] := by
      simp [served, hq]
    have hall : served (h ++ .handled (.execute t q) s.loop.vm s'.loop.vm :: pkts.map .produced) =
        requestsIn ops ++ [(t, q)] := by
      rw [hserved, hone, hreqs]
    have hin : (Packet.execute t q, s.loop.vm) ∈ handledOf t
        (h ++ .handled (.execute t q) s.loop.vm s'.loop.vm :: pkts.map .produced) := by
      rw [handledOf_append]
      refine List.mem_append_right _ (List.mem_filterMap.mpr ⟨_, .head _, ?_⟩)
      simp
    have htakes : s.loop.Takes t q (s.loop.recv uuid (.execute t q)).1 := Loop.recv_served t q
    obtain ⟨l', hl⟩ : ∃ l', s'.loop = l' := ⟨_, rfl⟩
    rw [← hloop, hl] at htakes
    cases htakes with
    | @serve vm outs hserves =>
      have hserves' : s.loop.vm.tables.Serves q outs s'.loop.vm.tables := by
        rw [hl]
        exact hserves
      have hact' : s'.loop.activity = .listening := by rw [hl]
      exact ⟨_, hs.concat hact' hall hin hserves'⟩
    | @call c htx hpend _ =>
      subst htx
      have hin' : (Packet.execute c.txId q, s'.loop.vm) ∈ handledOf c.txId
          (h ++ .handled (.execute c.txId q) s.loop.vm s'.loop.vm :: pkts.map .produced) := by
        rw [hl] at hin ⊢
        exact hin
      have hpend' : s'.loop.vm.Pending q c [] := by
        rw [hl]
        exact hpend
      have hact' : s'.loop.activity = .calling c := by rw [hl]
      exact ⟨ops, hs.keep (by rw [hl]) (.calling hact' hall hin' hpend')⟩
    | leave f hleft =>
      rw [hret q hq] at hleft
      cases hleft

/-! ## Runs of the VM -/

/-- A step of the VM without a packet is one of its loop. -/
theorem loop_step_of_vm {la : LoopAct σ ω} (hstep : step v uuid s (.vm la) = some s') :
    ∃ pkts, s.loop.step uuid la = some (s'.loop, pkts) ∧
      emits v uuid s (.vm la) = pkts.map .produced ∧ (∀ pkt, la ≠ .recv pkt) ∧
      s.out = [] ∧ s' = { s with loop := s'.loop, out := pkts } := by
  have hno : ∀ pkt, la ≠ .recv pkt := by
    rintro pkt rfl
    simp [step] at hstep
  have hloop : ∃ pkts, s.loop.step uuid la = some (s'.loop, pkts) ∧ s.out = [] ∧
      s' = { s with loop := s'.loop, out := pkts } := by
    cases hout : s.out with
    | cons pkt rest =>
      cases la <;> simp [step, hout] at hstep
    | nil =>
      cases la with
      | recv pkt => exact absurd rfl (hno pkt)
      | _ =>
        simp only [step, hout] at hstep
        obtain ⟨⟨loop, pkts⟩, hloop, rfl⟩ := Option.map_eq_some_iff.mp hstep
        exact ⟨pkts, hloop, rfl, rfl⟩
  obtain ⟨pkts, hpkts, hframe⟩ := hloop
  exact ⟨pkts, hpkts, by simp only [emits, hpkts], hno, hframe⟩

/-- The handling of a packet is a step of the VM's loop. -/
theorem loop_step_of_vmRecv (hstep : step v uuid s .vmRecv = some s') :
    ∃ pkt rest pkts, s.net.mailbox v = pkt :: rest ∧
      s.loop.step uuid (.recv pkt) = some (s'.loop, pkts) ∧
      emits v uuid s .vmRecv = .handled pkt s.loop.vm s'.loop.vm :: pkts.map .produced ∧
      s.out = [] ∧
      s' = ⟨{ s.net with mailbox := Function.update s.net.mailbox v rest }, s'.loop, pkts⟩ := by
  simp only [step, vmRecv] at hstep
  cases hout : s.out with
  | cons pkt rest => simp [hout] at hstep
  | nil =>
    cases hq : s.net.mailbox v with
    | nil => simp [hout, Net.take, hq, Mailbox.get] at hstep
    | cons pkt rest =>
      simp only [hout, Net.take, hq, Mailbox.get] at hstep
      obtain ⟨⟨loop, pkts⟩, hloop, rfl⟩ := Option.map_eq_some_iff.mp hstep
      exact ⟨pkt, rest, pkts, rfl, hloop, by simp only [emits, Net.take, hq, Mailbox.get, hloop],
        rfl, rfl⟩

/-- No other step changes the VM's loop, as long as the VM goes on running. -/
theorem Moves.loop_eq {a : SysAct σ ω} (hm : Moves v uuid s a es s') (hok : s.Healthy v a)
    (hvm : ∀ la, a ≠ .vm la) (hrecv : a ≠ .vmRecv) : s'.loop = s.loop ∧ served es = [] := by
  cases hm with
  | client m =>
    refine ⟨rfl, ?_⟩
    cases m <;> simp [requestedBy, served]
  | vm => exact absurd rfl (hvm _)
  | vmRecv => exact absurd rfl hrecv
  | vmAbort f hout hsends hfull hact =>
    have hroom : (s.net.inbox v).length < Mailbox.limit := by
      have himp := hok.2.1
      simpa [Imports, hact] using himp
    omega
  | _ => exact ⟨rfl, rfl⟩

/-- One step of a VM that has entered its event loop. -/
theorem HasServed.step {b : Tables σ ω} {ops : Operations} (hs : HasServed b s h ops)
    (ht : s.Traffic v) (hentered : s.loop.activity ≠ .importing) {a : SysAct σ ω}
    (hok : s.Healthy v a) (hstep : step v uuid s a = some s') :
    ∃ ops', HasServed b s' (h ++ emits v uuid s a) ops' := by
  by_cases hvm : ∃ la, a = .vm la
  · obtain ⟨la, rfl⟩ := hvm
    obtain ⟨pkts, hloop, hes, hno, -⟩ := loop_step_of_vm hstep
    rw [hes]
    cases hs.busy with
    | importing hact => exact absurd hact hentered
    | listening hact _ =>
      -- All that it can do on its own is stop.
      cases la with
      | stop => exact absurd hok.2.2 Bool.false_ne_true
      | recv pkt => exact absurd rfl (hno pkt)
      | _ => simp [Loop.step, hact] at hloop
    | @calling c q outs pkt hact _ _ _ =>
      cases la with
      | advance =>
        simp only [Loop.step, hact, Option.some.injEq] at hloop
        have hret : Vm.returned (c.code.step c.state) = true := by
          have hret' := hok.1.2
          simpa only [hact] using hret'
        exact hs.advance hact hloop hret
      | _ => simp [Loop.step, hact] at hloop
  · by_cases hrecv : a = .vmRecv
    · subst hrecv
      obtain ⟨pkt, rest, pkts, hq, hloop, hes, -⟩ := loop_step_of_vmRecv hstep
      rw [hes]
      cases hs.busy with
      | importing hact => exact absurd hact hentered
      | listening hact _ =>
        simp only [Loop.step, hact, Option.some.injEq] at hloop
        have hfor : pkt.ForVm := ht.forVm pkt (by rw [hq]; exact .head _)
        refine hs.handle hact hfor hloop fun q hreq => hok.1.1 q ?_
        simpa only [nextRequest, hact, hq] using hreq
      | calling hact => simp [Loop.step, hact] at hloop
    · obtain ⟨hloop, hserved⟩ := (moves_of_step ht hstep).loop_eq hok
        (fun la hla => hvm ⟨la, hla⟩) hrecv
      exact ⟨ops, hs.other hloop hserved⟩

/-- A step of a VM that imports modules: it has served nothing, and its tables are those of the
modules so far. -/
theorem importing_step (ht : s.Traffic v) {mods : List (Module σ ω)} {env : ω}
    (hact : s.loop.activity = .importing) (hserved : served h = [])
    (htables : s.loop.vm.tables = .imported env mods) {a : SysAct σ ω} (hok : s.Healthy v a)
    (hstep : Sys.step v uuid s a = some s') :
    served (h ++ emits v uuid s a) = [] ∧ (∃ mods, s'.loop.vm.tables = .imported env mods) ∧
      (s'.loop.activity = .importing ∨ s'.loop.activity = .listening) := by
  by_cases hvm : ∃ la, a = .vm la
  · obtain ⟨la, rfl⟩ := hvm
    obtain ⟨pkts, hloop, hes, hno, -⟩ := loop_step_of_vm hstep
    refine ⟨by rw [hes, served_append, hserved, served_produced, List.append_nil], ?_⟩
    cases la with
    | importModule mod =>
      simp only [Loop.step, hact, Option.some.injEq, Prod.mk.injEq] at hloop
      rw [← hloop.1]
      refine ⟨⟨mods ++ [mod], ?_⟩, .inl rfl⟩
      rw [Vm.tables_onImportModule, htables, Tables.imported, Tables.imported, List.foldl_append]
      rfl
    | enter =>
      simp only [Loop.step, hact, Option.some.injEq, Prod.mk.injEq] at hloop
      rw [← hloop.1]
      exact ⟨⟨mods, htables⟩, .inr rfl⟩
    | recv pkt => exact absurd rfl (hno pkt)
    | _ => simp [Loop.step, hact] at hloop
  · by_cases hrecv : a = .vmRecv
    · subst hrecv
      obtain ⟨pkt, rest, pkts, hq, hloop, hes, -⟩ := loop_step_of_vmRecv hstep
      simp [Loop.step, hact] at hloop
    · obtain ⟨hloop, hnone⟩ := (moves_of_step ht hstep).loop_eq hok
        (fun la hla => hvm ⟨la, hla⟩) hrecv
      refine ⟨by rw [served_append, hserved, hnone, List.append_nil], ⟨mods, ?_⟩, .inl ?_⟩
      · rw [hloop]
        exact htables
      · rw [hloop]
        exact hact

/-- A VM that has served nothing. -/
theorem hasServed_nil (hserved : served h = [])
    (hact : s.loop.activity = .importing ∨ s.loop.activity = .listening) :
    HasServed s.loop.vm.tables s h [] :=
  ⟨.nil _, fun _ _ _ hmem => absurd hmem List.not_mem_nil,
    hact.elim (fun hact => .importing hact rfl hserved) fun hact => .listening hact hserved⟩

variable {env : ω} {r : Recorded (Sys σ ω) (SysEvent σ ω)}

/-- In every run, the VM has served operations since a state in which it had served none and its
tables were those of the modules that it had imported. -/
theorem hasServed_of_reach
    (hr : ReachVia (recordedStep v uuid) (Kept v) (recordedStart v env) r) :
    ∃ r₀ ops, ReachVia (recordedStep v uuid) (Kept v) (recordedStart v env) r₀ ∧
      ReachVia (recordedStep v uuid) (Kept v) r₀ r ∧ served r₀.history = [] ∧
      (∃ mods, r₀.state.loop.vm.tables = .imported env mods) ∧
      HasServed r₀.state.loop.vm.tables r.state r.history ops := by
  induction hr with
  | init => exact ⟨_, [], .init, .init, rfl, ⟨[], rfl⟩, hasServed_nil rfl (.inl rfl)⟩
  | @step r r' a hreach hok hstep ih =>
    obtain ⟨r₀, ops, hr₀, hr, hnone, ⟨mods, hmods⟩, hs⟩ := ih
    have hreach' := hreach.step hok hstep
    have ht : r.state.Traffic v := traffic_of_reach (hreach.state fun _ _ _ => trivial)
    obtain ⟨hsys, hhist⟩ := record_eq_some_iff.mp hstep
    by_cases hact : r.state.loop.activity = .importing
    · -- As long as modules are imported, the run may as well begin anew.
      have hempty : served r.history = [] ∧ r.state.loop.vm.tables = .imported env mods := by
        cases hs.busy with
        | importing _ hops hserved =>
          have hlegal := hs.legal
          rw [hops] at hlegal
          exact ⟨hserved, (legal_nil_iff.mp hlegal).trans hmods⟩
        | listening hact' => cases hact.symm.trans hact'
        | calling hact' => cases hact.symm.trans hact'
      obtain ⟨hserved, hmods', hact'⟩ := importing_step ht hact hempty.1 hempty.2 hok.1.2 hsys
      rw [← hhist] at hserved
      exact ⟨r', [], hreach', .init, hserved, hmods', hasServed_nil hserved hact'⟩
    · obtain ⟨ops', hs'⟩ := hs.step ht hact hok.1.2 hsys
      rw [← hhist] at hs'
      exact ⟨r₀, ops', hr₀, hr.step hok hstep, hnone, ⟨mods, hmods⟩, hs'⟩

/-! ## The side of the clients -/

/-- The client of `c` has taken the last response of `t`. -/
def Finished (c : SocketName) (t : TxId) (h : List (SysEvent σ ω)) : Prop :=
  ∃ p ∈ tookBy c h, p.Finishes t

instance (c : SocketName) (t : TxId) (h : List (SysEvent σ ω)) : Decidable (Finished c t h) :=
  inferInstanceAs (Decidable (∃ p ∈ _, _))

/-- The transaction `t` came before `t'`, as far as clients can tell: its last response had been
taken when `t'` was requested, or one client has requested it before. -/
def Earlier (h : List (SysEvent σ ω)) (t t' : TxId) : Prop :=
  (∃ pre post c c' q, h = pre ++ .requested c' t' q :: post ∧ Finished c t pre) ∨
    ∃ c, (askedBy c h).Precedes t t'

/-- A transaction that the broker has refused. -/
def refusedTx (c : SocketName) (q : Request) (t : TxId) : Tx σ ω :=
  ⟨[(c, q)], fun _ => [], [], [], none, [], none, only c [refusal t]⟩

/-- What the last response of a transaction says: the broker has refused it, or the client has taken
the whole answer of the VM. -/
theorem finished_cases {c : SocketName}
    (hr : ReachVia (recordedStep v uuid) (Kept v) (recordedStart v env) r)
    (hfin : Finished c t r.history) :
    (∃ q, tx v t r.state r.history = refusedTx c q t ∧
        responsesOf t (tookBy c r.history) = [refusal t]) ∨
      ∃ q vm outs, handledOf t r.history = [(.execute t q, vm)] ∧
        callOf t r.state.loop = none ∧ vm.Outputs q outs ∧
        responsesOf t (tookBy c r.history) = outputPackets t 0 outs := by
  obtain ⟨p, hp, hresp, hflag⟩ := hfin
  have hmem : p ∈ responsesOf t (tookBy c r.history) :=
    List.mem_filter.mpr ⟨hp, by simpa using hresp⟩
  have hstage := stage_of_reach hr t
  have hhanded : (tx v t r.state r.history).handed c =
      responsesOf t (tookBy c r.history) ++ responsesOf t (r.state.net.mailbox c) := by
    simp only [tx, responsesOf_append]
  have hhist : handledOf t r.history = (tx v t r.state r.history).handled := rfl
  have hcall : callOf t r.state.loop = (tx v t r.state r.history).call := rfl
  have hin : p ∈ (tx v t r.state r.history).handed c := by
    rw [hhanded]
    exact List.mem_append_left _ hmem
  rw [hhist, hcall]
  generalize tx v t r.state r.history = x at *
  cases hstage with
  | absent | waiting | forwarded => cases hin
  | refused c' q =>
    have hin' : p ∈ only c' [refusal t] c := hin
    obtain ⟨rfl, -⟩ := mem_only hin'
    have hall : only c [refusal t] c = _ := hhanded
    rw [only_self] at hall
    refine .inl ⟨q, rfl, ?_⟩
    have hlen := congrArg List.length hall
    have hpos := List.length_pos_of_mem hmem
    simp only [List.length_append, List.length_singleton] at hlen
    have hnil : responsesOf t (r.state.net.mailbox c) = [] :=
      List.length_eq_zero_iff.mp (by omega)
    rw [hnil, List.append_nil] at hall
    exact hall.symm
  | @working c' q vm call outs handed pending _ _ _ houts hpkts _ =>
    -- No output that the VM has made so far is the last one.
    have hin' : p ∈ outputPackets t 0 outs := by
      rw [← hpkts]
      refine List.mem_append_left _ ?_
      have hin'' : p ∈ only c' handed c := hin
      exact (mem_only hin'').2
    obtain ⟨o, ho, hflag'⟩ := boolHeader_of_mem hin'
    rw [houts o ho] at hflag'
    cases hflag.symm.trans hflag'
  | @answered c' q vm outs handed pending requester hcomp hpkts hvm _ =>
    have hin' : p ∈ only c' handed c := hin
    obtain ⟨rfl, -⟩ := mem_only hin'
    have hall : only c handed c = _ := hhanded
    rw [only_self] at hall
    obtain ⟨pre, post, hsplit⟩ := List.append_of_mem hmem
    have hpkts' : outputPackets t 0 outs =
        pre ++ p :: (post ++ (responsesOf t (r.state.net.mailbox c) ++ pending)) := by
      rw [← hpkts, hall, hsplit]
      simp only [List.append_assoc, List.cons_append]
    have hrest := hcomp.rest_nil hpkts' hflag
    refine .inr ⟨q, vm, outs, rfl, rfl, hvm, ?_⟩
    rw [hpkts', hsplit, hrest, (List.append_eq_nil_iff.mp hrest).1]

/-- Nothing happens to a transaction any more that the broker has refused. -/
theorem refused_stays {c : SocketName} {q : Request} {r₁ : Recorded (Sys σ ω) (SysEvent σ ω)}
    (hr₁ : ReachVia (recordedStep v uuid) (Kept v) (recordedStart v env) r₁)
    (hr : ReachVia (recordedStep v uuid) (Kept v) r₁ r)
    (href : tx v t r₁.state r₁.history = refusedTx c q t) :
    tx v t r.state r.history = refusedTx c q t := by
  induction hr with
  | init => exact href
  | @step r r' a hreach hok hstep ih =>
    obtain ⟨hsys, hhist⟩ := record_eq_some_iff.mp hstep
    have hr := hr₁.trans hreach
    have ht : r.state.Traffic v := traffic_of_reach (hr.state fun _ _ _ => trivial)
    have hgo := not_stopped_of_reach (hr.mono fun _ _ hok => hok.1)
    have htx := (moves_of_step ht hsys).tx (t := t) ht (fun hact => hgo (.inl hact)) hok.1.1 hok.1.2
      hok.2
    rw [← hhist, ih] at htx
    rcases htx with heq | hnext
    · exact heq
    · -- There is no packet, no entry and no call that a step could be about.
      generalize tx v t r'.state r'.history = y at hnext
      unfold refusedTx at hnext
      cases hnext with
      | request _ _ hnew => cases hnew
      | refuse hask => cases hask
      | forward hask => cases hask
      | relay hpend => cases hpend
      | vanish hpend => cases hpend
      | answer hdel => cases hdel
      | call hdel => cases hdel
      | next hcall => cases hcall
      | finish hcall => cases hcall

/-- What the VM has handled in the end of a finished transaction, it had handled when it was
finished. -/
theorem served_of_finished {c : SocketName} {r₁ : Recorded (Sys σ ω) (SysEvent σ ω)}
    (hr₁ : ReachVia (recordedStep v uuid) (Kept v) (recordedStart v env) r₁)
    (hr : ReachVia (recordedStep v uuid) (Kept v) r₁ r) (hfin : Finished c t r₁.history)
    (ht : t ∈ (served r.history).map Prod.fst) : t ∈ (served r₁.history).map Prod.fst := by
  rcases finished_cases hr₁ hfin with ⟨q, href, -⟩ | ⟨q, vm, outs, hhandled, -⟩
  · have hnone : handledOf t r.history = [] := congrArg Tx.handled (refused_stays hr₁ hr href)
    have hpos := List.count_pos_iff.mpr ht
    have hle := count_served_le (t := t) r.history
    rw [hnone, List.length_nil] at hle
    omega
  · have hmem : (Packet.execute t q, vm) ∈ handledOf t r₁.history := by
      rw [hhandled]
      exact List.mem_singleton_self _
    obtain ⟨after, hafter⟩ := mem_handledOf hmem
    exact List.mem_map.mpr ⟨(t, q.filled),
      mem_served_iff.mpr ⟨_, vm, after, hafter, executeId_execute, Packet.request?_execute t q⟩, rfl⟩

/-- The state before a request of the history, in which the VM had not handled it. -/
theorem before_request {c : SocketName} {q : Request} {pre post : List (SysEvent σ ω)}
    (hr : ReachVia (recordedStep v uuid) (Kept v) (recordedStart v env) r)
    (hsplit : r.history = pre ++ .requested c t q :: post) :
    ∃ r₁, ReachVia (recordedStep v uuid) (Kept v) (recordedStart v env) r₁ ∧
      ReachVia (recordedStep v uuid) (Kept v) r₁ r ∧ r₁.history = pre ∧
      t ∉ (served pre).map Prod.fst := by
  obtain ⟨r₁, a, r₂, es₁, es₂, hr₁, hok, hs, hes, hpre, hr₂⟩ := hr.step_of_mem rfl hsplit
  obtain ⟨hstep, -⟩ := record_eq_some_iff.mp hs
  have ht : r₁.state.Traffic v := traffic_of_reach (hr₁.state fun _ _ _ => trivial)
  have he : .requested c t q ∈ emits v uuid r₁.state a := by
    rw [hes]
    exact List.mem_append_right _ (.head _)
  -- The request is the only event of its step, and its id is fresh.
  obtain ⟨rfl, hone⟩ := (moves_of_step ht hstep).of_requested he
  have hempty : es₁ = [] := by
    have hlen := congrArg List.length (hone.symm.trans hes)
    simp only [List.length_append, List.length_cons, List.length_nil] at hlen
    exact List.length_eq_zero_iff.mp (by omega)
  rw [hempty, List.append_nil] at hpre
  refine ⟨r₁, hr₁, (ReachVia.init.step hok hs).trans hr₂, hpre.symm, fun hmem => ?_⟩
  have hreqs : (tx v t r₁.state r₁.history).requests = [] := requestsOf_of_fresh hok.1.1
  have hpos := List.count_pos_iff.mpr hmem
  have hle := count_served_le (t := t) pre
  have hnone : (tx v t r₁.state r₁.history).handled = [] := by
    have hstage := stage_of_reach hr₁ t
    generalize tx v t r₁.state r₁.history = x at *
    cases hstage with
    | absent => rfl
    | _ => cases hreqs
  have hlen : handledOf t pre = [] := by
    rw [hpre]
    exact hnone
  rw [hlen, List.length_nil] at hle
  omega

/-- The VM serves what came earlier to the clients before the rest. -/
theorem served_earlier {t' : TxId}
    (hr : ReachVia (recordedStep v uuid) (Kept v) (recordedStart v env) r)
    (hearlier : Earlier r.history t t') (ht : t ∈ (served r.history).map Prod.fst)
    (ht' : t' ∈ (served r.history).map Prod.fst) :
    ((served r.history).map Prod.fst).Precedes t t' := by
  rcases hearlier with ⟨pre, post, c, c', q, hsplit, hfin⟩ | ⟨c, hasked⟩
  · obtain ⟨r₁, hr₁, hrest, rfl, hnew⟩ := before_request hr hsplit
    have hold := served_of_finished hr₁ hrest hfin ht
    have hall : (served r.history).map Prod.fst = (served r₁.history).map Prod.fst ++
        (served (.requested c' t' q :: post)).map Prod.fst := by
      rw [hsplit, served_append, List.map_append]
    rw [hall] at ht' ⊢
    exact List.precedes_iff.mpr ⟨_, _, rfl, hold, (List.mem_append.mp ht').resolve_left hnew⟩
  · exact served_in_order hr hasked ht ht'

/-! ## The whole system -/

/-- The operations `ops` explain what the clients see: they are legal for a VM that serves one
request after the other, from the tables `b` to those that the VM has now; they respect the order
that clients can tell; they are requests that clients have made; and a client that has taken the last
response of a transaction has taken the answer of its operation, or the refusal of the broker to a
request that is none of the operations. -/
structure Explains (b : Tables σ ω) (ops : Operations) (r : Recorded (Sys σ ω) (SysEvent σ ω)) :
    Prop where
  linearizes : Linearizes Tables.Serves (Earlier r.history) b ops r.state.loop.vm.tables
  requested : ∀ t q outs, (t, q, outs) ∈ ops →
    ∃ c q', .requested c t q' ∈ r.history ∧ q'.filled = q
  answers : ∀ c t, Finished c t r.history →
    (responsesOf t (tookBy c r.history) = [refusal t] ∧ ∀ x ∈ ops, x.1 ≠ t) ∨
      ∃ q outs, (t, q, outs) ∈ ops ∧
        responsesOf t (tookBy c r.history) = outputPackets t 0 outs

/-- The operations are the first of those that the VM has handled. -/
theorem Busy.initial {ops : Operations} (hb : Busy s h ops) : requestsIn ops <+: served h := by
  cases hb with
  | importing _ hops _ =>
    rw [hops]
    exact List.nil_prefix
  | listening _ hreqs => rw [hreqs]
  | calling _ hreqs =>
    rw [hreqs]
    exact List.prefix_append _ _

/-- What the VM has handled is one of the operations, unless its call is in the loop. -/
theorem Busy.mem {ops : Operations} (hb : Busy s h ops) {q : Request} (hmem : (t, q) ∈ served h)
    (hcall : callOf t s.loop = none) : (t, q) ∈ requestsIn ops := by
  cases hb with
  | importing _ _ hnone =>
    rw [hnone] at hmem
    cases hmem
  | listening _ hreqs =>
    rw [← hreqs]
    exact hmem
  | @calling c q' outs pkt hact hreqs =>
    rw [hreqs] at hmem
    refine (List.mem_append.mp hmem).resolve_right fun hlast => ?_
    obtain ⟨rfl, -⟩ := Prod.mk.inj (List.mem_singleton.mp hlast)
    simp [callOf, hact] at hcall

/-- What the VM has handled was requested. -/
theorem requested_of_served {q : Request}
    (hr : ReachVia (recordedStep v uuid) (Kept v) (recordedStart v env) r)
    (hmem : (t, q) ∈ served r.history) :
    ∃ c q', .requested c t q' ∈ r.history ∧ q'.filled = q := by
  obtain ⟨pkt, before, after, he, hid, hq⟩ := mem_served_iff.mp hmem
  have hin := mem_handledOf_of_mem he hid
  have hstage := stage_of_reach hr t
  have hhist : handledOf t r.history = (tx v t r.state r.history).handled := rfl
  have hreqs : requestsOf t r.history = (tx v t r.state r.history).requests := rfl
  rw [hhist] at hin
  have hone : ∃ c q', (c, q') ∈ (tx v t r.state r.history).requests ∧ pkt = .execute t q' := by
    generalize tx v t r.state r.history = x at *
    cases hstage with
    | absent | waiting | refused | forwarded => cases hin
    | working c q' vm | answered c q' vm =>
      obtain ⟨rfl, -⟩ := Prod.mk.inj (List.mem_singleton.mp hin)
      exact ⟨c, q', List.mem_singleton_self _, rfl⟩
  obtain ⟨c, q', hreq, rfl⟩ := hone
  rw [← hreqs] at hreq
  rw [Packet.request?_execute, Option.some.injEq] at hq
  exact ⟨c, q', requested_of_mem hreq, hq⟩

/-- What the VM has served explains what the clients see. -/
theorem HasServed.explains {b : Tables σ ω} {ops : Operations}
    (hs : HasServed b r.state r.history ops)
    (hr : ReachVia (recordedStep v uuid) (Kept v) (recordedStart v env) r) : Explains b ops r := by
  have hsub : (ops.map Prod.fst).Sublist ((served r.history).map Prod.fst) := by
    have hids : ops.map Prod.fst = (requestsIn ops).map Prod.fst := by simp [requestsIn]
    rw [hids]
    exact hs.busy.initial.sublist.map _
  refine ⟨⟨hs.legal, (nodup_served hr).sublist hsub, ?_⟩, ?_, ?_⟩
  · intro t t' hearlier ht ht'
    exact (served_earlier hr hearlier (hsub.subset ht) (hsub.subset ht')).of_sublist
      (nodup_served hr) hsub ht ht'
  · intro t q outs hmem
    have hin : (t, q) ∈ requestsIn ops := List.mem_map.mpr ⟨_, hmem, rfl⟩
    exact requested_of_served hr (hs.busy.initial.subset hin)
  · intro c t hfin
    rcases finished_cases hr hfin with ⟨q, href, htook⟩ | ⟨q, vm, outs, hhandled, hcall, houts, htook⟩
    · refine .inl ⟨htook, fun x hx hxt => ?_⟩
      obtain ⟨pkt, vm, hin, -⟩ := hs.answered x.1 x.2.1 x.2.2 hx
      have hnone : handledOf t r.history = [] := congrArg Tx.handled href
      rw [hxt, hnone] at hin
      cases hin
    · have hin : (Packet.execute t q, vm) ∈ handledOf t r.history := by
        rw [hhandled]
        exact List.mem_singleton_self _
      obtain ⟨after, hafter⟩ := mem_handledOf hin
      have hserved : (t, q.filled) ∈ served r.history :=
        mem_served_iff.mpr ⟨_, vm, after, hafter, executeId_execute, Packet.request?_execute t q⟩
      obtain ⟨⟨t', q', outs'⟩, hop, heq⟩ := List.mem_map.mp (hs.busy.mem hserved hcall)
      obtain ⟨rfl, rfl⟩ := Prod.mk.inj heq
      -- The answer of the operation is the one that the VM has given.
      obtain ⟨pkt, vm', hin', houts'⟩ := hs.answered _ _ _ hop
      rw [hhandled] at hin'
      obtain ⟨-, rfl⟩ := Prod.mk.inj (List.mem_singleton.mp hin')
      obtain rfl := Vm.Outputs.unique houts' ((vm'.outputs_filled q outs).mpr houts)
      exact .inr ⟨q.filled, outs', hop, htook⟩

/-- In every run in which clients use fresh ids, the VM goes on running, and no packet of a request
is lost: what the clients see is what a VM does that serves one request after the other, from a
state of the run in which it had served none and its tables were those of the modules imported. -/
theorem linearizable (hr : ReachVia (recordedStep v uuid) (Kept v) (recordedStart v env) r) :
    ∃ r₀ mods ops, ReachVia (recordedStep v uuid) (Kept v) (recordedStart v env) r₀ ∧
      ReachVia (recordedStep v uuid) (Kept v) r₀ r ∧ served r₀.history = [] ∧
      r₀.state.loop.vm.tables = .imported env mods ∧ Explains (.imported env mods) ops r := by
  obtain ⟨r₀, ops, hr₀, hrest, hnone, ⟨mods, hmods⟩, hs⟩ := hasServed_of_reach hr
  rw [hmods] at hs
  exact ⟨r₀, mods, ops, hr₀, hrest, hnone, hmods, hs.explains hr⟩

/-- The client `c` calls `count` and the client `d` defines a component at the same time. The broker
handles the definition first, and the responses come when both requests have been handled. -/
def twoClientsRun : List (SysAct OperatorState Unit) :=
  [.accept "d", .client "c" (.execute "t" (.callFunction "count" none)),
    .client "d" (.execute "u" (.defineComponent "service" "s" none)), .broker "d", .broker "c",
    .vmRecv, .vmSend, .vmSend, .vmSend, .vmRecv, .vm .advance, .vmSend, .vm .advance, .vmSend,
    .broker "vm", .broker "vm", .broker "vm", .broker "vm", .broker "vm", .take "c", .take "d",
    .take "c"]

theorem linearizable_twoClientsRun : ∃ r : Recorded (Sys OperatorState Unit) _,
    ReachVia (recordedStep "vm" fun n => toString n) (Kept "vm") (recordedStart "vm" ()) r ∧
      Finished "c" "t" r.history ∧ Finished "d" "u" r.history ∧
      ∃ r₀ mods ops, ReachVia (recordedStep "vm" fun n => toString n) (Kept "vm")
          (recordedStart "vm" ()) r₀ ∧
        ReachVia (recordedStep "vm" fun n => toString n) (Kept "vm") r₀ r ∧
        served r₀.history = [] ∧ r₀.state.loop.vm.tables = .imported () mods ∧
        Explains (.imported () mods) ops r := by
  have hmeets : Meets (recordedStep "vm" fun n => toString n) (Kept "vm") (recordedStart "vm" ())
    (servingRun ++ twoClientsRun) := by decide
  have hend : (run (recordedStep "vm" fun n => toString n) (recordedStart "vm" ())
      (servingRun ++ twoClientsRun)).map (fun r => (decide (Finished "c" "t" r.history),
        decide (Finished "d" "u" r.history))) = some (true, true) := by
    decide
  obtain ⟨r, hrun, hfin⟩ := Option.map_eq_some_iff.mp hend
  obtain ⟨hc, hd⟩ := Prod.mk.inj hfin
  have hreach := ReachVia.init.of_run hmeets hrun
  exact ⟨r, hreach, of_decide_eq_true hc, of_decide_eq_true hd, linearizable hreach⟩

end Sys

end Ailoy
