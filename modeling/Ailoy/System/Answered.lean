import Ailoy.System.Responses
import Ailoy.Vm.Upkeep

/-!
# What the responses tell a client

A client knows of the VM only what its responses say. When it has taken the result of a definition
or a deletion, the VM has handled the request, and the broker all packets that the VM had sent
before the response (`Confirmed.answered`). A client takes at most one terminal response of each
transaction (`terminals_le`), and exactly one when the transaction is settled (`Handed.terminals`).
-/

namespace Ailoy.Sys

open Transition

variable {σ ω : Type} {v : SocketName} {uuid : ℕ → TxId} {s s' : Sys σ ω} {t : TxId}
  {es h : List (SysEvent σ ω)}

/-! ## Conditions on the runs -/

/-- Clients use fresh ids, the code of modules returns, no mailbox overflows, and no component is
defined while one of its name exists. -/
def Calm (v : SocketName) (r : Recorded (Sys σ ω) (SysEvent σ ω)) (a : SysAct σ ω) : Prop :=
  Fresh r.history a ∧ r.state.Returns v a ∧ r.state.Imports v a ∧ r.state.Roomy v a ∧
    r.state.Singular v a

/-- Besides, the VM is not stopped, and method names do not contain the separator of channels. -/
def Regular (v : SocketName) (r : Recorded (Sys σ ω) (SysEvent σ ω)) (a : SysAct σ ω) : Prop :=
  Calm v r a ∧ Running a ∧ r.state.PlainMethods v a

instance (v : SocketName) (r : Recorded (Sys σ ω) (SysEvent σ ω)) (a : SysAct σ ω) :
    Decidable (Calm v r a) :=
  inferInstanceAs (Decidable (_ = _ ∧ ((∀ q ∈ _, _) ∧ _ = _) ∧ _ = _ ∧ _ ∧ _))

instance (v : SocketName) (r : Recorded (Sys σ ω) (SysEvent σ ω)) (a : SysAct σ ω) :
    Decidable (Regular v r a) :=
  inferInstanceAs (Decidable (_ ∧ _ = _ ∧ _))

theorem Regular.tidy {r : Recorded (Sys σ ω) (SysEvent σ ω)} {a : SysAct σ ω}
    (h : Regular v r a) : r.state.Tidy v a :=
  ⟨h.1.2.2.2.1, h.1.2.2.2.2, h.2.2⟩

theorem Regular.kept {r : Recorded (Sys σ ω) (SysEvent σ ω)} {a : SysAct σ ω}
    (h : Regular v r a) : Kept v r a :=
  ⟨⟨h.1.1, h.1.2.1, h.1.2.2.1, h.2.1⟩, fun x hx _ => h.1.2.2.2.1 x hx⟩

/-! ## What a step is to the VM -/

/-- A step in which the VM does nothing, one in which the broker handles a packet of it, a step of
the VM without a packet, or the handling of one. -/
inductive Turn (v : SocketName) (uuid : ℕ → TxId) (s : Sys σ ω) :
    List (SysEvent σ ω) → Sys σ ω → Prop
  | other {es : List (SysEvent σ ω)} {s' : Sys σ ω} : s'.loop = s.loop →
      s'.unheard v = s.unheard v → (∀ t, handledOf t es = []) → Turn v uuid s es s'
  | heard {s' : Sys σ ω} (p : Packet) : s'.loop = s.loop → s.unheard v = p :: s'.unheard v →
      Turn v uuid s [] s'
  | own {a : LoopAct σ ω} {pkts : List Packet} {s' : Sys σ ω} :
      Loop.Moves uuid s.loop a s'.loop pkts → (∀ pkt, a ≠ .recv pkt) →
      s'.unheard v = s.unheard v ++ pkts → Turn v uuid s (pkts.map .produced) s'
  | handles {pkt : Packet} {rest pkts : List Packet} {s' : Sys σ ω} :
      s.net.mailbox v = pkt :: rest → Loop.Moves uuid s.loop (.recv pkt) s'.loop pkts →
      (s.loop.activity = .listening → s.loop.Tidy (.recv pkt)) →
      s'.unheard v = s.unheard v ++ pkts →
      Turn v uuid s (.handled pkt s.loop.vm s'.loop.vm :: pkts.map .produced) s'

/-- Every step is one of these, when no mailbox overflows. -/
theorem Moves.turn {a : SysAct σ ω} (hm : Moves v uuid s a es s') (hok : s.Tidy v a) :
    Turn v uuid s es s' := by
  have hsilent : ∀ t, handledOf t ([] : List (SysEvent σ ω)) = [] := fun _ => rfl
  cases hm with
  | idle => exact .other rfl rfl hsilent
  | accept hc => exact .other rfl rfl hsilent
  | @client c m hc _ =>
    refine .other rfl ?_ fun t => ?_
    · simp only [unheard, Function.update_of_ne (Ne.symm hc)]
    · cases m <;> rfl
  | take hc hq => exact .other rfl rfl fun t => rfl
  | @reply c msg reply rest b hq _ _ _ _ _ _ _ =>
    by_cases hc : c = v
    · subst hc
      refine .heard msg rfl ?_
      simp only [unheard, Net.deliver_inbox, Net.received, Function.update_self, hq,
        List.cons_append]
    · refine .other rfl ?_ hsilent
      simp only [unheard, Net.deliver_inbox, Net.received, Function.update_of_ne (Ne.symm hc)]
  | refuse hc hq _ _ =>
    refine .other rfl ?_ hsilent
    simp only [unheard, Net.deliver_inbox, Net.received, Function.update_of_ne (Ne.symm hc)]
  | forward hc hq _ _ =>
    refine .other rfl ?_ hsilent
    simp only [unheard, Net.deliver_inbox, Net.received, Function.update_of_ne (Ne.symm hc)]
  | @relay c t i out rest b hc hq _ _ _ _ =>
    refine .heard (out.packet t i) rfl ?_
    simp only [unheard, Net.deliver_inbox, Net.received, Function.update_self, hq,
      List.cons_append]
  | @vanish t i out rest hq _ =>
    refine .heard (out.packet t i) rfl ?_
    simp only [unheard, Net.received, Function.update_self, hq, List.cons_append]
  | @vm a loop pkts hout hloop hno =>
    refine .own hloop hno ?_
    simp only [unheard, hout, List.append_nil]
  | @vmRecv pkt rest pkts loop hout hq hloop =>
    refine @Turn.handles σ ω v uuid s pkt rest pkts ⟨_, loop, pkts⟩ hq hloop (hok.loop hq) ?_
    simp only [unheard, hout, List.append_nil]
  | vmSend hout =>
    refine .other rfl ?_ hsilent
    simp only [unheard, hout, Function.update_self, List.append_assoc, List.singleton_append]
  | vmDrop hout hsends hfull | vmAbort f hout hsends hfull hact =>
    have hroom : (s.net.inbox v).length < Mailbox.limit := hok.1 _ hsends
    omega

/-- The client `c` has taken a response of `t` with a result. -/
def Confirmed (c : SocketName) (t : TxId) (h : List (SysEvent σ ω)) : Prop :=
  ∃ p ∈ tookBy c h, p.Responds t ∧ p.status = .ok true

instance (c : SocketName) (t : TxId) (h : List (SysEvent σ ω)) : Decidable (Confirmed c t h) :=
  inferInstanceAs (Decidable (∃ p ∈ _, _ ∧ _))

/-- What the VM has handled of a transaction is in its list. -/
theorem mem_handledOf_of_mem {pkt : Packet} {before after : Vm σ ω}
    (he : .handled pkt before after ∈ h) (hid : pkt.executeId = some t) :
    (pkt, before) ∈ handledOf t h :=
  List.mem_filterMap.mpr ⟨_, he, by simp [hid]⟩

/-- A transaction of the list has been requested. -/
theorem requested_of_mem {c : SocketName} {q : Request} (hmem : (c, q) ∈ requestsOf t h) :
    .requested c t q ∈ h := by
  obtain ⟨e, he, heq⟩ := List.mem_filterMap.mp hmem
  cases e with
  | requested c' t' q' =>
    simp only [Option.ite_none_right_eq_some, Option.some.injEq, Prod.mk.injEq] at heq
    obtain ⟨rfl, rfl, rfl⟩ := heq
    exact he
  | _ => cases heq

/-- A packet that is handled in a step is handled with the tables before it. -/
theorem Turn.of_handled (hturn : Turn v uuid s es s') {pkt : Packet} {before : Vm σ ω}
    (hmem : (pkt, before) ∈ handledOf t es) :
    before = s.loop.vm ∧ ∃ pkts, s'.unheard v = s.unheard v ++ pkts ∧
      Loop.Moves uuid s.loop (.recv pkt) s'.loop pkts := by
  cases hturn with
  | other _ _ hes =>
    rw [hes] at hmem
    cases hmem
  | heard => cases hmem
  | own =>
    rw [handledOf_produced] at hmem
    cases hmem
  | @handles pkt' rest pkts _ hq hloop _ hun =>
    obtain ⟨after, hafter⟩ := mem_handledOf hmem
    rcases List.mem_cons.mp hafter with heq | hprod
    · obtain ⟨rfl, rfl, -⟩ := SysEvent.handled.inj heq
      exact ⟨rfl, pkts, hun, hloop⟩
    · obtain ⟨p, -, hp⟩ := List.mem_map.mp hprod
      cases hp

/-- A request is the only event of the step that makes it. -/
theorem Moves.of_requested {a : SysAct σ ω} (hm : Moves v uuid s a es s') {c : SocketName}
    {q : Request} (he : .requested c t q ∈ es) :
    a = .client c (.execute t q) ∧ es = [.requested c t q] := by
  cases hm with
  | @client c' m hc _ =>
    cases m with
    | connect | disconnect => cases he
    | execute t' q' =>
      obtain ⟨rfl, rfl, rfl⟩ := SysEvent.requested.inj (List.mem_singleton.mp he)
      exact ⟨rfl, rfl⟩
  | take => cases List.mem_singleton.mp he
  | vm =>
    obtain ⟨p, -, hp⟩ := List.mem_map.mp he
    cases hp
  | vmRecv =>
    rcases List.mem_cons.mp he with heq | hprod
    · cases heq
    · obtain ⟨p, -, hp⟩ := List.mem_map.mp hprod
      cases hp
  | _ => cases he

variable {env : ω} {r : Recorded (Sys σ ω) (SysEvent σ ω)}

/-- A request in the VM's mailbox is the one that a client has made, and nobody has taken a response
to it. -/
theorem requested_of_mailbox
    (hr : ReachVia (recordedStep v uuid) (Kept v) (recordedStart v env) r) {q : Request}
    {rest : List Packet} (hq : r.state.net.mailbox v = .execute t q :: rest) :
    ∃ c q', .requested c t q' ∈ r.history ∧ Packet.execute t q = .execute t q' ∧
      ∀ o, responsesOf t (tookBy o r.history) = [] := by
  have hdel : (tx v t r.state r.history).delivered = .execute t q :: executesOf t rest := by
    simp only [tx, hq]
    exact executesOf_cons executeId_execute
  obtain ⟨c, q', hpkt, -, hx⟩ := (stage_of_reach hr t).of_delivered hdel
  have hreqs : requestsOf t r.history = [(c, q')] := congrArg Tx.requests hx
  have hhanded : ∀ o, responsesOf t (tookBy o r.history ++ r.state.net.mailbox o) = [] :=
    congrFun (congrArg Tx.handed hx)
  refine ⟨c, q', requested_of_mem (by rw [hreqs]; exact List.mem_singleton_self _), hpkt,
    fun o => ?_⟩
  have hboth := hhanded o
  rw [responsesOf_append] at hboth
  exact (List.append_eq_nil_iff.mp hboth).1

/-- When the client of a definition or a deletion has taken a result, the VM has handled the request
with this result, and the broker has handled all that the VM had sent for it. -/
theorem Confirmed.answered {c : SocketName} {q : Request} (hconf : Confirmed c t r.history)
    (hr : ReachVia (recordedStep v uuid) (Kept v) (recordedStart v env) r)
    (hreq : .requested c t q ∈ r.history) (hq : q.IsCall = false) :
    ∃ vm, handledOf t r.history = [(.execute t q, vm)] ∧
      vm.Outputs q [.ok (.map []) true] ∧ responsesOf t (r.state.unheard v) = [] := by
  obtain ⟨p, hp, hresp, hstatus⟩ := hconf
  have hmem := mem_requestsOf hreq
  have hstage := stage_of_reach hr t
  have htaken : p ∈ (tx v t r.state r.history).handed c := by
    simp only [tx, responsesOf_append]
    exact List.mem_append_left _ (List.mem_filter.mpr ⟨hp, by simpa using hresp⟩)
  have hhist : handledOf t r.history = (tx v t r.state r.history).handled := rfl
  have hreqs : requestsOf t r.history = (tx v t r.state r.history).requests := rfl
  have hpend : responsesOf t (r.state.unheard v) = (tx v t r.state r.history).pending := rfl
  rw [hreqs] at hmem
  rw [hhist, hpend]
  generalize tx v t r.state r.history = x at *
  cases hstage with
  | absent => cases hmem
  | waiting c' q' => cases htaken
  | refused c' q' =>
    obtain ⟨rfl, rfl⟩ := Prod.mk.inj (List.mem_singleton.mp hmem)
    have htaken' : p ∈ only c [refusal t] c := htaken
    rw [only_self, List.mem_singleton] at htaken'
    rw [htaken'] at hstatus
    cases hstatus
  | forwarded c' q' => cases htaken
  | working c' q' vm hfinds =>
    obtain ⟨rfl, rfl⟩ := Prod.mk.inj (List.mem_singleton.mp hmem)
    rw [Vm.isCall_of_finds hfinds] at hq
    cases hq
  | @answered c' q' vm outs handed pending requester hcomp hpkts hvm _ =>
    obtain ⟨rfl, rfl⟩ := Prod.mk.inj (List.mem_singleton.mp hmem)
    -- The answer is one packet, which the client has taken.
    obtain ⟨o, ho, hone⟩ := vm.outputs_single hq
    obtain rfl : outs = [o] := hone outs hvm
    have htaken' : p ∈ only c handed c := htaken
    rw [only_self] at htaken'
    obtain ⟨rest, hrest⟩ : ∃ rest, handed = p :: rest := by
      cases handed with
      | nil => cases htaken'
      | cons p' rest =>
        have hlen := congrArg List.length hpkts
        simp only [List.length_append, List.length_cons, length_outputPackets,
          List.length_nil] at hlen
        have hnil : rest = [] := List.length_eq_zero_iff.mp (by omega)
        rw [hnil, List.mem_singleton] at htaken'
        exact ⟨rest, by rw [htaken']⟩
    have hsplit : p :: (rest ++ pending) = [o.packet t 0] := by
      rw [← List.cons_append, ← hrest]
      exact hpkts
    obtain ⟨rfl, hnil⟩ := List.cons.inj hsplit
    refine ⟨vm, rfl, ?_, (List.append_eq_nil_iff.mp hnil).2⟩
    rcases ho with rfl | ⟨e, rfl⟩
    · exact hvm
    · cases hstatus

/-- A request of the history was sent in a step of the run, before which the VM had handled nothing
of its transaction. -/
theorem sent_of_split
    (hr : ReachVia (recordedStep v uuid) (Regular v) (recordedStart v env) r)
    {pre post : List (SysEvent σ ω)} {c : SocketName} {q : Request}
    (hsplit : r.history = pre ++ .requested c t q :: post) :
    ∃ r₁ r₂, ReachVia (recordedStep v uuid) (Regular v) (recordedStart v env) r₁ ∧
      ReachVia (recordedStep v uuid) (Regular v) (recordedStart v env) r₂ ∧
      ReachVia (recordedStep v uuid) (Regular v) r₂ r ∧ r₁.history = pre ∧
      r₂.history = pre ++ [.requested c t q] ∧ handledOf t r₂.history = [] := by
  obtain ⟨r₁, a, r₂, es₁, es₂, hr₁, hok, hs, hes, hpre, hr₂⟩ := hr.step_of_mem rfl hsplit
  obtain ⟨hstep, hhist⟩ := record_eq_some_iff.mp hs
  have ht : r₁.state.Traffic v := traffic_of_reach (hr₁.state fun _ _ _ => trivial)
  have he : .requested c t q ∈ emits v uuid r₁.state a := by
    rw [hes]
    exact List.mem_append_right _ (.head _)
  -- The step that sends the request has no other event, and the id is fresh.
  obtain ⟨rfl, hone⟩ := (moves_of_step ht hstep).of_requested he
  have hempty : es₁ = [] := by
    rw [hone] at hes
    have hlen := congrArg List.length hes
    simp only [List.length_append, List.length_cons, List.length_nil] at hlen
    exact List.length_eq_zero_iff.mp (by omega)
  have hfresh : requestsOf t r₁.history = [] := requestsOf_of_fresh hok.1.1
  have hunhandled : handledOf t r₁.history = [] := by
    have hstage := stage_of_reach (hr₁.mono fun _ _ hok => hok.kept) t
    have hreqs : (tx v t r₁.state r₁.history).requests = [] := hfresh
    show (tx v t r₁.state r₁.history).handled = []
    generalize tx v t r₁.state r₁.history = x at *
    cases hstage with
    | absent => rfl
    | _ => cases hreqs
  rw [hempty, List.append_nil] at hpre
  rw [hone, ← hpre] at hhist
  refine ⟨r₁, r₂, hr₁, .step hr₁ hok hs, hr₂, hpre.symm, hhist, ?_⟩
  rw [hhist, handledOf_append, hpre, hunhandled]
  rfl

/-! ## Terminal responses -/

/-- How many responses of `t` with the finish flag the client `c` has taken. -/
def terminals (c : SocketName) (t : TxId) (h : List (SysEvent σ ω)) : ℕ :=
  (tookBy c h).countP fun p => p.Finishes t

/-- The terminal responses are among the responses. -/
theorem terminals_eq (c : SocketName) (t : TxId) (h : List (SysEvent σ ω)) :
    terminals c t h = (responsesOf t (tookBy c h)).countP fun p => p.Finishes t := by
  unfold terminals responsesOf
  rw [List.countP_filter]
  refine List.countP_congr fun p _ => ?_
  simp only [Bool.and_eq_true, decide_eq_true_eq]
  exact ⟨fun hfin => ⟨hfin, hfin.1⟩, fun hfin => hfin.1⟩

/-- A longer history has at least as many terminal responses. -/
theorem terminals_mono {c : SocketName} {h h' : List (SysEvent σ ω)} (hp : h <+: h') :
    terminals c t h ≤ terminals c t h' := by
  obtain ⟨rest, rfl⟩ := hp
  unfold terminals
  rw [tookBy_append, List.countP_append]
  omega

/-- No packet of outputs that are not final is terminal. -/
theorem countP_of_not_final {i : ℕ} {outs : List Output} (h : ∀ o ∈ outs, o.final = false) :
    (outputPackets t i outs).countP (fun p => p.Finishes t) = 0 := by
  rw [List.countP_eq_zero]
  intro p hp hfin
  obtain ⟨o, ho, hflag⟩ := boolHeader_of_mem hp
  have hfin' : p.Finishes t := of_decide_eq_true hfin
  rw [hfin'.2, h o ho] at hflag
  cases hflag

/-- Complete outputs have one terminal packet. -/
theorem countP_of_complete {i : ℕ} {outs : List Output} (h : Complete outs) :
    (outputPackets t i outs).countP (fun p => p.Finishes t) = 1 := by
  obtain ⟨vals, last, rfl, hvals, hlast⟩ := h
  have hfin : (last.packet t (i + vals.length)).Finishes t := by
    refine ⟨Output.responds_packet t _ last, ?_⟩
    rw [Output.boolHeader_packet, hlast]
  rw [outputPackets_append, List.countP_append, countP_of_not_final hvals]
  simp only [outputPackets, List.countP_singleton, decide_eq_true hfin]
  rfl

/-- A socket has at most what is queued for the one socket. -/
theorem countP_only_le {c c' : SocketName} {l : List Packet} (p : Packet → Bool) :
    (only c l c').countP p ≤ l.countP p := by
  by_cases hc : c' = c
  · rw [hc, only_self]
  · rw [only_of_ne hc]
    exact Nat.zero_le _

/-- In every stage, at most one terminal response has been put in the mailbox of a client. -/
theorem terminals_le_of_stage {x : Tx σ ω} (hx : Tx.Stage t x) (c : SocketName) :
    (x.handed c).countP (fun p => p.Finishes t) ≤ 1 := by
  cases hx with
  | absent | waiting | forwarded => exact Nat.zero_le _
  | refused c' q =>
    have hone : [refusal t].countP (fun p => p.Finishes t) ≤ 1 := List.countP_le_length
    exact (countP_only_le _).trans hone
  | @working c' q vm call outs handed pending _ _ _ houts hpkts _ =>
    have hzero : (outputPackets t 0 outs).countP (fun p => p.Finishes t) = 0 :=
      countP_of_not_final houts
    rw [← hpkts, List.countP_append] at hzero
    have hle : (only c' handed c).countP (fun p => p.Finishes t) ≤
        handed.countP fun p => p.Finishes t := countP_only_le _
    show (only c' handed c).countP (fun p => p.Finishes t) ≤ 1
    omega
  | @answered c' q vm outs handed pending requester hcomp hpkts _ _ =>
    have hone : (outputPackets t 0 outs).countP (fun p => p.Finishes t) = 1 :=
      countP_of_complete hcomp
    rw [← hpkts, List.countP_append] at hone
    have hle : (only c' handed c).countP (fun p => p.Finishes t) ≤
        handed.countP fun p => p.Finishes t := countP_only_le _
    show (only c' handed c).countP (fun p => p.Finishes t) ≤ 1
    omega

/-- A client takes at most one terminal response of a transaction. -/
theorem terminals_le (hr : ReachVia (recordedStep v uuid) (Kept v) (recordedStart v env) r)
    (c : SocketName) (t : TxId) : terminals c t r.history ≤ 1 := by
  have hle := terminals_le_of_stage (stage_of_reach hr t) c
  simp only [tx, responsesOf_append, List.countP_append] at hle
  rw [terminals_eq]
  omega

/-- The client of a settled transaction has taken one terminal response. -/
theorem Handed.terminals {c : SocketName} {q : Request} (hh : Handed c t q h) :
    terminals c t h = 1 := by
  rw [terminals_eq]
  rcases hh with ⟨before, after, outs, -, -, hcomp, htook⟩ | htook
  · rw [htook, countP_of_complete hcomp]
  · have hfin : (refusal t).Finishes t := ⟨⟨rfl, rfl⟩, rfl⟩
    simp only [htook, List.countP_singleton, decide_eq_true hfin, if_true]

end Ailoy.Sys
