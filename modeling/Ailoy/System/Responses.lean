import Ailoy.System.Channels
import Ailoy.System.Delivery

/-!
# What becomes of a request

When no send of an `execute` or `respond_execute` packet finds its mailbox full, each transaction of
a run is in one of its stages (`stage_of_reach`). So a transaction with no packet on its way and no
call in the VM has been answered to its client in full (`requests_handed`). Nothing else keeps a
packet from being lost: neither the broker nor the VM looks at what `send` returns, and
`floodedRun_not_handed` is a run in which a request is never answered.
-/

namespace Ailoy.Sys

open Transition

variable {σ ω : Type} {v : SocketName} {uuid : ℕ → TxId} {s s' : Sys σ ω} {t : TxId}

/-- Clients use fresh ids, and the VM goes on running. -/
def Fair (v : SocketName) (r : Recorded (Sys σ ω) (SysEvent σ ω)) (a : SysAct σ ω) : Prop :=
  Fresh r.history a ∧ r.state.Healthy v a

/-- No packet of a request is lost. -/
def Kept (v : SocketName) (r : Recorded (Sys σ ω) (SysEvent σ ω)) (a : SysAct σ ω) : Prop :=
  Fair v r a ∧ r.state.Lossless v a

instance (v : SocketName) (r : Recorded (Sys σ ω) (SysEvent σ ω)) (a : SysAct σ ω) :
    Decidable (Fair v r a) :=
  inferInstanceAs (Decidable (_ ∧ _))

instance (v : SocketName) (r : Recorded (Sys σ ω) (SysEvent σ ω)) (a : SysAct σ ω) :
    Decidable (Kept v r a) :=
  inferInstanceAs (Decidable (_ ∧ _))

/-- The VM is not in the loop of the call of `t`, has sent what it has made for it, and no mailbox
holds a packet of it. -/
structure Settled (t : TxId) (s : Sys σ ω) : Prop where
  inbox : ∀ c ∈ s.net.attached, ∀ p ∈ s.net.inbox c, ¬ p.Concerns t
  mailbox : ∀ c ∈ s.net.attached, ∀ p ∈ s.net.mailbox c, ¬ p.Concerns t
  out : ∀ p ∈ s.out, ¬ p.Concerns t
  finished : (callOf t s.loop).isNone

instance (t : TxId) (s : Sys σ ω) : Decidable (Settled t s) :=
  decidable_of_iff ((∀ c ∈ s.net.attached, ∀ p ∈ s.net.inbox c, ¬ p.Concerns t) ∧
      (∀ c ∈ s.net.attached, ∀ p ∈ s.net.mailbox c, ¬ p.Concerns t) ∧
      (∀ p ∈ s.out, ¬ p.Concerns t) ∧ (callOf t s.loop).isNone)
    ⟨fun ⟨hi, hm, ho, hf⟩ => ⟨hi, hm, ho, hf⟩, fun h => ⟨h.inbox, h.mailbox, h.out, h.finished⟩⟩

/-- The client has taken all packets of the request's outputs, or the broker's refusal. -/
def Handed (c : SocketName) (t : TxId) (q : Request) (h : List (SysEvent σ ω)) : Prop :=
  (∃ before after outs, .handled (.execute t q) before after ∈ h ∧ before.Outputs q outs ∧
      Complete outs ∧ responsesOf t (tookBy c h) = outputPackets t 0 outs) ∨
    responsesOf t (tookBy c h) = [refusal t]

/-- What the VM has handled is in the history. -/
theorem mem_handledOf {pkt : Packet} {before : Vm σ ω} {h : List (SysEvent σ ω)} :
    (pkt, before) ∈ handledOf t h → ∃ after, .handled pkt before after ∈ h := by
  intro hmem
  obtain ⟨e, he, heq⟩ := List.mem_filterMap.mp hmem
  cases e with
  | handled pkt' before' after =>
    simp only [Option.ite_none_right_eq_some, Option.some.injEq, Prod.mk.injEq] at heq
    obtain ⟨-, rfl, rfl⟩ := heq
    exact ⟨after, he⟩
  | _ => cases heq

/-- The request of a transaction is in its list. -/
theorem mem_requestsOf {c : SocketName} {q : Request} {h : List (SysEvent σ ω)}
    (he : .requested c t q ∈ h) : (c, q) ∈ requestsOf t h :=
  List.mem_filterMap.mpr ⟨_, he, by simp⟩

/-- Only a stop stops the VM. -/
theorem Moves.not_stopped {a : SysAct σ ω} {es : List (SysEvent σ ω)}
    (hm : Moves v uuid s a es s') (hok : Running a) (hgo : ¬ s.Stopped) : ¬ s'.Stopped := by
  have hdrain : s.loop.activity ≠ .draining := fun hact => hgo (.inl hact)
  have hstep : ∀ {a loop pkts}, Loop.Moves uuid s.loop a loop pkts → a ≠ .stop →
      ¬ (loop.activity = .draining ∨ loop.activity = .returned) := by
    intro a loop pkts hloop hstop
    cases hloop with
    | stop => exact absurd rfl hstop
    | drain ids hact => exact absurd hact hdrain
    | disconnect t hact => exact absurd hact hdrain
    | _ => rintro (⟨⟨⟩⟩ | ⟨⟨⟩⟩)
  cases hm with
  | @vm a loop pkts hout hloop hno =>
    refine hstep hloop ?_
    rintro rfl
    simp [Running] at hok
  | vmRecv hout hq hloop => exact hstep hloop (by rintro ⟨⟩)
  | vmAbort => rintro (⟨⟨⟩⟩ | ⟨⟨⟩⟩)
  | _ => exact hgo

/-- The VM is not stopped in a run in which it goes on running. -/
theorem not_stopped_of_reach {env : ω} {r : Recorded (Sys σ ω) (SysEvent σ ω)}
    (hr : ReachVia (recordedStep v uuid) (Fair v) (recordedStart v env) r) : ¬ r.state.Stopped := by
  refine hr.invariant (P := fun r => ¬ r.state.Stopped) (by rintro (⟨⟨⟩⟩ | ⟨⟨⟩⟩)) ?_
  intro r a r' hreach hgo hok hstep
  obtain ⟨hstep, -⟩ := record_eq_some_iff.mp hstep
  have ht : r.state.Traffic v := traffic_of_reach (hreach.state fun _ _ _ => trivial)
  exact (moves_of_step ht hstep).not_stopped hok.2.2.2 hgo

/-- Every transaction is in one of its stages, in every run that loses no packet. -/
theorem stage_of_reach {env : ω} {r : Recorded (Sys σ ω) (SysEvent σ ω)}
    (hr : ReachVia (recordedStep v uuid) (Kept v) (recordedStart v env) r) (t : TxId) :
    Tx.Stage t (tx v t r.state r.history) := by
  refine hr.invariant (P := fun r => Tx.Stage t (tx v t r.state r.history)) .absent ?_
  rintro ⟨s, h⟩ a ⟨s', h'⟩ hreach hstage ⟨⟨hfresh, hhealthy⟩, hloss⟩ hstep
  obtain ⟨hstep, rfl⟩ := record_eq_some_iff.mp hstep
  have ht : s.Traffic v := traffic_of_reach (hreach.state fun _ _ _ => trivial)
  have hgo := not_stopped_of_reach (hreach.mono fun _ _ hok => hok.1)
  have hm := moves_of_step ht hstep
  rcases hm.tx (t := t) ht (fun hact => hgo (.inl hact)) hfresh hhealthy hloss with heq | htx
  · rw [heq]
    exact hstage
  · exact hstage.step htx

/-- What a settled transaction looks like: nothing of it is in the queues, and what its client has
been handed has been taken. -/
theorem Settled.tx (hs : Settled t s) (ht : s.Traffic v) (h : List (SysEvent σ ω)) :
    (∀ c, (Sys.tx v t s h).asked c = []) ∧ (Sys.tx v t s h).delivered = [] ∧
      (Sys.tx v t s h).pending = [] ∧ (Sys.tx v t s h).call = none ∧
      ∀ c, (Sys.tx v t s h).handed c = responsesOf t (tookBy c h) := by
  have hexec : ∀ q : List Packet, (∀ p ∈ q, ¬ p.Concerns t) → executesOf t q = [] := by
    intro q hq
    unfold executesOf
    rw [List.filter_eq_nil_iff]
    intro p hp hid
    exact hq p hp (.inl (by simpa using hid))
  have hresp : ∀ q : List Packet, (∀ p ∈ q, ¬ p.Concerns t) → responsesOf t q = [] :=
    fun q hq => responsesOf_eq_nil fun p hp hr => hq p hp (.inr hr)
  refine ⟨fun c => ?_, hexec _ (hs.mailbox v ht.attached), ?_,
    Option.isNone_iff_eq_none.mp hs.finished, fun c => ?_⟩
  · by_cases hc : c ∈ s.net.attached
    · exact hexec _ (hs.inbox c hc)
    · have hnil := (ht.unattached c hc).1
      simp only [Sys.tx, hnil]
      rfl
  · refine hresp _ fun p hp => ?_
    rcases List.mem_append.mp hp with hp | hp
    · exact hs.inbox v ht.attached p hp
    · exact hs.out p hp
  · have hmail : responsesOf t (s.net.mailbox c) = [] := by
      by_cases hc : c ∈ s.net.attached
      · exact hresp _ (hs.mailbox c hc)
      · rw [(ht.unattached c hc).2]
        rfl
    simp only [Sys.tx, responsesOf_append, hmail, List.append_nil]

/-- The client of a settled transaction has taken all that it is due. -/
theorem Settled.handed {env : ω} {r : Recorded (Sys σ ω) (SysEvent σ ω)}
    (hr : ReachVia (recordedStep v uuid) (Kept v) (recordedStart v env) r)
    (hs : Settled t r.state) {c : SocketName} {q : Request}
    (hreq : .requested c t q ∈ r.history) : Handed c t q r.history := by
  have ht : r.state.Traffic v := traffic_of_reach (hr.state fun _ _ _ => trivial)
  obtain ⟨hasked, hdel, hpend, hcall, hhanded⟩ := hs.tx ht r.history
  have hmem := mem_requestsOf hreq
  have hstage := stage_of_reach hr t
  have hhist : handledOf t r.history = (Sys.tx v t r.state r.history).handled := rfl
  have hreqs : requestsOf t r.history = (Sys.tx v t r.state r.history).requests := rfl
  rw [hreqs] at hmem
  generalize Sys.tx v t r.state r.history = x at *
  cases hstage with
  | absent => cases hmem
  | waiting c' q' =>
    have hone : only c' [Packet.execute t q'] c' = [] := hasked c'
    rw [only_self] at hone
    cases hone
  | refused c' q' =>
    obtain ⟨rfl, rfl⟩ := Prod.mk.inj (List.mem_singleton.mp hmem)
    exact .inr ((hhanded c).symm.trans only_self)
  | forwarded c' q' => cases hdel
  | working c' q' vm => cases hcall
  | @answered c' q' vm outs handed pending requester hcomp hpkts hvm _ =>
    obtain ⟨rfl, rfl⟩ := Prod.mk.inj (List.mem_singleton.mp hmem)
    obtain rfl : pending = [] := hpend
    have hone : (Packet.execute t q, vm) ∈ handledOf t r.history := by
      rw [hhist]
      exact List.mem_singleton_self _
    obtain ⟨after, hafter⟩ := mem_handledOf hone
    have htook : only c handed c = responsesOf t (tookBy c r.history) := hhanded c
    refine .inl ⟨vm, after, outs, hafter, hvm, hcomp, ?_⟩
    rw [← htook, only_self, ← hpkts, List.append_nil]

/-- The client `c` calls `count`, which yields two outputs, and takes their packets. -/
def countingRun : List (SysAct OperatorState Unit) :=
  [.client "c" (.execute "t" (.callFunction "count" none)), .broker "c", .vmRecv, .vm .advance,
    .vmSend, .vm .advance, .vmSend, .broker "vm", .broker "vm", .take "c", .take "c"]

/-- The id of the request `n` of a client. -/
def floodId (n : ℕ) : TxId := String.ofList (List.replicate n 'a')

theorem floodId_inj {m n : ℕ} (h : floodId m = floodId n) : m = n := by
  have hl := String.ofList_injective h
  have hlen := congrArg List.length hl
  rwa [List.length_replicate, List.length_replicate] at hlen

/-- A request of a function that no module provides. -/
def floodRequest : Request := .callFunction "f" none

/-- The network when the client `c` has made `n` requests and taken no packet, and the requests
`inbox` are not handled yet. -/
def floodNet (n : ℕ) (inbox : List Packet) : Net where
  broker := (Broker.empty.accept "vm").accept "c"
  attached := {"c", "vm"}
  inbox := only "c" inbox
  mailbox := only "c" ((List.range n).map fun i => refusal (floodId i))

/-- What has happened after `n` requests of the client `c`. -/
def floodHistory (n : ℕ) : List (SysEvent OperatorState Unit) :=
  (List.range n).map fun i => .requested "c" (floodId i) floodRequest

/-- The system with a network of the flood. -/
def flooded (net : Net) (n : ℕ) : Recorded (Sys OperatorState Unit) (SysEvent OperatorState Unit) :=
  ⟨⟨net, ⟨.empty (), .listening⟩, []⟩, floodHistory n⟩

/-- The state is reached by a run with fresh ids, in which the VM goes on running. -/
def FloodReach (r : Recorded (Sys OperatorState Unit) (SysEvent OperatorState Unit)) : Prop :=
  ReachVia (recordedStep "vm" fun n => toString n) (Fair "vm") (recordedStart "vm" ()) r

/-- A step of a client or of the broker does not stop the VM. -/
theorem healthy_of_other {a : SysAct σ ω} (h : (∃ c m, a = .client c m) ∨ ∃ c, a = .broker c) :
    s.Healthy v a := by
  rcases h with ⟨c, m, rfl⟩ | ⟨c, rfl⟩ <;>
    exact ⟨⟨by rintro r ⟨⟩, rfl⟩, rfl, rfl⟩

/-- The client sends its next request. -/
theorem FloodReach.request {n : ℕ} (h : FloodReach (flooded (floodNet n []) n)) :
    FloodReach (flooded (floodNet n [.execute (floodId n) floodRequest]) (n + 1)) := by
  refine ReachVia.step h ⟨?_, healthy_of_other (.inl ⟨_, _, rfl⟩)⟩
    (a := .client "c" (.execute (floodId n) floodRequest)) ?_
  · refine List.all_eq_true.mpr fun e he => ?_
    obtain ⟨i, hi, rfl⟩ := List.mem_map.mp he
    have hlt : i < n := List.mem_range.mp hi
    have hne : floodId i ≠ floodId n := fun heq => by
      have := floodId_inj heq
      omega
    simpa using hne
  · rw [record_eq_some_iff]
    refine ⟨?_, ?_⟩
    · have hbox : Function.update (only "c" []) "c" [.execute (floodId n) floodRequest] =
          only "c" [Packet.execute (floodId n) floodRequest] := update_only
      simp only [flooded, floodNet, ← hbox]
      rfl
    · simp only [flooded, floodHistory, List.range_succ, List.map_append]
      rfl

/-- The broker refuses the request, and drops the answer when the client's mailbox is full. -/
theorem FloodReach.refuse {n : ℕ}
    (h : FloodReach (flooded (floodNet n [.execute (floodId n) floodRequest]) (n + 1))) :
    FloodReach (flooded ((floodNet n []).deliver "c" (refusal (floodId n))).1 (n + 1)) := by
  refine ReachVia.step h ⟨rfl, healthy_of_other (.inr ⟨_, rfl⟩)⟩ (a := .broker "c") ?_
  rw [record_eq_some_iff]
  refine ⟨?_, (List.append_nil _).symm⟩
  have hbox : only "c" ([] : List Packet) =
      Function.update (only "c" [.execute (floodId n) floodRequest]) "c" [] := update_only.symm
  simp only [flooded, floodNet, hbox]
  rfl

/-- As long as the mailbox is not full, the answers are in it. -/
theorem floodReach (n : ℕ) (hn : n ≤ Mailbox.limit) : FloodReach (flooded (floodNet n []) n) := by
  induction n with
  | zero =>
    have hrun : run (recordedStep "vm" fun n => toString n) (recordedStart "vm" ())
        [.vm .enter, .accept "c"] = some (flooded (floodNet 0 []) 0) := by
      simp only [flooded, floodNet, List.range_zero, List.map_nil, only_nil]
      rfl
    exact ReachVia.init.of_run (by decide) hrun
  | succ n ih =>
    have hstep := (ih (by omega)).request.refuse
    have hlen : ((floodNet n []).mailbox "c").length < Mailbox.limit := by
      simp only [floodNet, only_self, List.length_map, List.length_range]
      omega
    have hnet : ((floodNet n []).deliver "c" (refusal (floodId n))).1 = floodNet (n + 1) [] := by
      unfold Net.deliver
      rw [Mailbox.set_of_lt hlen]
      simp only [floodNet, update_only, only_self, List.range_succ, List.map_append,
        List.map_cons, List.map_nil]
    rwa [hnet] at hstep

end Ailoy.Sys
