import Ailoy.System.Traffic

/-!
# The broker's routes and the VM's tables

The broker maps a channel to the VM when the VM has subscribed it, and the VM subscribes and
unsubscribes as its tables change. Between the two are the packets that the broker has not handled
yet, in the VM's hands or in the mailbox. `Agree` is the invariant over all runs: these packets, in
order, turn the broker's routes into the channels that the VM offers. So the two are equal whenever
no packet is left.
-/

namespace Ailoy.Sys

open Transition

variable {σ ω : Type} {v : SocketName} {uuid : ℕ → TxId} {s s' : Sys σ ω}

/-- The VM has been stopped. -/
def Stopped (s : Sys σ ω) : Prop := s.loop.activity = .draining ∨ s.loop.activity = .returned

instance (s : Sys σ ω) : Decidable s.Stopped :=
  match h : s.loop.activity with
  | .draining => isTrue (.inl h)
  | .returned => isTrue (.inr h)
  | .importing | .listening | .calling _ | .left _ =>
    isFalse (by rintro (hs | hs) <;> simp [h] at hs)

/-- The packets of the VM that the broker has not handled. -/
def unheard (v : SocketName) (s : Sys σ ω) : List Packet := s.net.inbox v ++ s.out

/-- The VM's packets that the broker has not handled turn the routes into what the VM offers. -/
structure Agree (v : SocketName) (s : Sys σ ω) : Prop where
  announced : announced (s.net.broker.routes v) (s.unheard v) = s.loop.offered
  sound : s.loop.Sound

/-- No mailbox overflows, no component is defined while one of its name exists, and method names do
not contain the separator of channels. -/
def Tidy (v : SocketName) (s : Sys σ ω) (a : SysAct σ ω) : Prop :=
  s.Roomy v a ∧ s.Singular v a ∧ s.PlainMethods v a

instance (v : SocketName) (s : Sys σ ω) (a : SysAct σ ω) : Decidable (s.Tidy v a) :=
  inferInstanceAs (Decidable (_ ∧ _ ∧ _))

/-- The request that the VM handles meets the conditions on definitions. -/
theorem Tidy.loop {pkt : Packet} {rest : List Packet} (hok : s.Tidy v .vmRecv)
    (hq : s.net.mailbox v = pkt :: rest) (hact : s.loop.activity = .listening) :
    s.loop.Tidy (.recv pkt) := by
  intro r hr
  have hnext : s.nextRequest v .vmRecv = some r := by
    simp only [nextRequest, hact, hq]
    exact hr
  exact ⟨hok.2.1 r hnext, hok.2.2 r hnext⟩

/-- The agreement after the VM has made packets. -/
theorem Agree.produce (ha : s.Agree v) (hout : s.out = []) {a : LoopAct σ ω} {loop : Loop σ ω}
    {pkts : List Packet} (hloop : Loop.Moves uuid s.loop a loop pkts)
    (ht : s.loop.activity = .listening → s.loop.Tidy a) :
    Ailoy.announced (s.net.broker.routes v) (s.net.inbox v ++ pkts) = loop.offered ∧
      loop.Sound := by
  have hbefore : Ailoy.announced (s.net.broker.routes v) (s.net.inbox v) = s.loop.offered := by
    have h := ha.announced
    rwa [unheard, hout, List.append_nil] at h
  rw [announced_append, hbefore]
  exact hloop.offered ha.sound ht

/-- The agreement after the broker has handled a message of the VM that is no announcement. -/
theorem Agree.pass (ha : s.Agree v) {msg : Packet} {rest : List Packet}
    (hq : s.net.inbox v = msg :: rest)
    (hmsg : announce (s.net.broker.routes v) msg = s.net.broker.routes v) :
    Ailoy.announced (s.net.broker.routes v) (rest ++ s.out) = s.loop.offered := by
  have h := ha.announced
  rw [unheard, hq, List.cons_append] at h
  rw [← h]
  exact congrArg (Ailoy.announced · (rest ++ s.out)) hmsg.symm

/-- The agreement is preserved by every step that meets the conditions. -/
theorem Agree.moves (ha : s.Agree v) {a : SysAct σ ω} {es : List (SysEvent σ ω)}
    (hok : s.Tidy v a) (hm : Moves v uuid s a es s') : s'.Agree v := by
  cases hm with
  | idle => exact ha
  | accept hc => exact ⟨ha.announced, ha.sound⟩
  | client m hc _ =>
    refine ⟨?_, ha.sound⟩
    simpa only [unheard, Function.update_of_ne (Ne.symm hc)] using ha.announced
  | take hc hq => exact ⟨ha.announced, ha.sound⟩
  | @reply c msg reply rest b hq _ _ _ _ hroutes _ _ =>
    refine ⟨?_, ha.sound⟩
    have h := ha.announced
    simp only [unheard, Net.deliver_broker, Net.deliver_inbox, Net.received] at h ⊢
    rw [hroutes]
    by_cases hc : c = v
    · -- The announcement leaves the queue and takes effect.
      subst hc
      rw [hq, List.cons_append] at h
      rw [if_pos rfl, Function.update_self]
      exact h
    · rw [if_neg hc, Function.update_of_ne (Ne.symm hc)]
      exact h
  | refuse hc hq _ _ =>
    refine ⟨?_, ha.sound⟩
    have h := ha.announced
    simp only [unheard, Net.deliver_broker, Net.deliver_inbox, Net.received] at h ⊢
    rw [Function.update_of_ne (Ne.symm hc)]
    exact h
  | forward hc hq _ _ =>
    refine ⟨?_, ha.sound⟩
    have h := ha.announced
    simp only [unheard, Net.deliver_broker, Net.deliver_inbox, Net.received] at h ⊢
    rw [Function.update_of_ne (Ne.symm hc)]
    exact h
  | @relay c t i out rest b hc hq _ hsubs _ _ =>
    refine ⟨?_, ha.sound⟩
    have h := ha.pass hq (announce_packet _ t i out)
    have hroutes : b.routes v = s.net.broker.routes v := by
      unfold Broker.routes
      rw [hsubs]
    simp only [unheard, Net.deliver_broker, Net.deliver_inbox, Net.received, Function.update_self]
    rw [hroutes]
    exact h
  | @vanish t i out rest hq _ =>
    refine ⟨?_, ha.sound⟩
    have h := ha.pass hq (announce_packet _ t i out)
    simp only [unheard, Net.received, Function.update_self]
    exact h
  | @vm a loop pkts hout hloop hno =>
    have h := ha.produce hout hloop fun _ => by
      cases a with
      | recv pkt => exact absurd rfl (hno pkt)
      | _ => trivial
    exact ⟨h.1, h.2⟩
  | vmRecv hout hq hloop =>
    have h := ha.produce hout hloop (hok.loop hq)
    exact ⟨h.1, h.2⟩
  | vmSend hout =>
    refine ⟨?_, ha.sound⟩
    have h := ha.announced
    simp only [unheard, hout, Function.update_self, List.append_assoc,
      List.singleton_append] at h ⊢
    exact h
  | vmDrop hout hsends hfull | vmAbort f hout hsends hfull hact =>
    have hroom : (s.net.inbox v).length < Mailbox.limit := hok.1 _ hsends
    omega

/-- The start: nothing is subscribed and nothing offered. -/
theorem agree_start (v : SocketName) (env : ω) : (start v env : Sys σ ω).Agree v := by
  refine ⟨?_, by rintro c ⟨⟩, fun i hi => ?_⟩
  · ext ch
    simp only [start, unheard, Net.empty, Broker.accept, Broker.empty, Broker.routes,
      List.append_nil, announced_nil, Loop.offered, Loop.start, Vm.offered, Set.mem_ofPred_eq]
    constructor
    · intro h
      simp at h
    · rintro ⟨i, hi, -⟩
      cases i <;> simp [Vm.Offers, Vm.empty] at hi
  · cases i <;> simp [start, Loop.start, Vm.Offers, Vm.empty] at hi

/-- The agreement in every run whose steps meet the conditions. -/
theorem agree_of_reach {env : ω} (hr : ReachVia (step v uuid) (Tidy v) (start v env) s) :
    s.Agree v := by
  refine hr.invariant (P := fun s => s.Agree v) (agree_start v env) ?_
  intro s a s' hreach ha hok hstep
  have ht : s.Traffic v := traffic_of_reach (hreach.mono fun _ _ _ => trivial)
  exact ha.moves hok (moves_of_step ht hstep)

/-- For every run of the VM, the broker, and any clients in which no mailbox overflows, no component
is defined while one of its name exists, and method names do not contain the separator: whenever the
broker has handled all packets of the VM, the channels that it maps to the VM are exactly those of
the operators, the component types, and the components with their methods in the VM's tables, and
none once the VM has been stopped. -/
theorem channels_agree {env : ω} (hr : ReachVia (step v uuid) (Tidy v) (start v env) s)
    (hdone : s.net.inbox v = [] ∧ s.out = []) :
    (¬ s.Stopped → s.net.broker.routes v = {ch | ∃ i, s.loop.vm.Offers i ∧ i.channel = ch}) ∧
      (s.Stopped → s.net.broker.routes v = ∅) := by
  have h := (agree_of_reach hr).announced
  rw [unheard, hdone.1, hdone.2, List.append_nil, announced_nil] at h
  rw [h]
  constructor
  · intro hrun
    unfold Loop.offered
    split
    · rename_i hact
      exact absurd (.inl hact) hrun
    · rename_i hact
      exact absurd (.inr hact) hrun
    · rfl
  · rintro (hact | hact)
    · simp only [Loop.offered, hact]
    · simp only [Loop.offered, hact]

/-- A component type whose components have the method `get`. -/
def serviceFactory : ComponentFactory OperatorState Unit := fun _ env =>
  .ok (.ok ⟨(∅ : UnorderedMap _ _).insert "get" Loop.countOperator, ⟨none, none⟩⟩, env)

/-- A module with a function and a component type. -/
def serviceModule : Module OperatorState Unit :=
  ⟨(∅ : UnorderedMap _ _).insert "count" ⟨Loop.countOperator, ⟨none, none⟩⟩,
    (∅ : UnorderedMap _ _).insert "service" serviceFactory⟩

/-- The VM has imported `serviceModule` and is in its event loop, and the client `c` is accepted. -/
def servingRun : List (SysAct OperatorState Unit) :=
  [.vm (.importModule serviceModule), .vmSend, .vmSend, .vm .enter, .broker "vm", .broker "vm",
    .vmRecv, .vmRecv, .accept "c"]

/-- The client `c` asks for the component `s`, and the packets of the definition are handled. -/
def definingRun : List (SysAct OperatorState Unit) :=
  [.client "c" (.execute "t" (.defineComponent "service" "s" none)), .broker "c", .vmRecv,
    .vmSend, .vmSend, .vmSend, .broker "vm", .broker "vm", .broker "vm"]

theorem channels_agree_definingRun : ∃ s : Sys OperatorState Unit,
    ReachVia (step "vm" fun n => toString n) (Tidy "vm") (start "vm" ()) s ∧
      (s.net.inbox "vm" = [] ∧ s.out = []) ∧ ¬ s.Stopped ∧
      s.net.broker.routes "vm" = {ch | ∃ i, s.loop.vm.Offers i ∧ i.channel = ch} := by
  have hmeets : Meets (step "vm" fun n => toString n) (Tidy "vm") (start "vm" ())
    (servingRun ++ definingRun) := by decide
  have hend : (run (step "vm" fun n => toString n) (start "vm" ())
      (servingRun ++ definingRun)).map (fun s => ((s.net.inbox "vm").isEmpty, s.out.isEmpty,
        decide (¬ s.Stopped))) = some (true, true, true) := by decide
  obtain ⟨s, hrun, hs⟩ := Option.map_eq_some_iff.mp hend
  obtain ⟨hinbox, hs⟩ := Prod.mk.inj hs
  obtain ⟨hout, hact⟩ := Prod.mk.inj hs
  have hreach := ReachVia.init.of_run hmeets hrun
  have hdone : s.net.inbox "vm" = [] ∧ s.out = [] :=
    ⟨List.isEmpty_iff.mp hinbox, List.isEmpty_iff.mp hout⟩
  have hgo : ¬ s.Stopped := of_decide_eq_true hact
  exact ⟨s, hreach, hdone, hgo, (channels_agree hreach hdone).1 hgo⟩

end Ailoy.Sys
