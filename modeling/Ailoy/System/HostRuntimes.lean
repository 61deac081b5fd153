import Ailoy.Bindings.AsyncStreams
import Ailoy.Bindings.SyncRuntime
import Ailoy.System.Linearizable

/-!
# Programs of the bindings on the whole system

A program that uses a `Runtime` of the bindings is one of the clients: what `client.listen()` gives it
are the packets that the client takes from its mailbox, as dictionaries, with timeouts in between.
The responses that a client takes carry the replies of each transaction once, in order and numbered
from zero (`Sys.carries_of_reach`), which is what the runtimes need. So the values that a generator
yields, and the failure that it raises, are the answer of the VM, and the answers are those of a VM
that serves one request after the other (`Sys.generators_served`). The calls of `AsyncRuntime` take
the same answers, reply by reply (`Sys.streams_served`), and the promises of the runtime of
JavaScript are settled with them (`Sys.promises_served`).
-/

namespace Ailoy

open Transition

/-! ## Packets as the runtime reads them -/

namespace Packet

/-- `packet["body"][key]`. -/
def bodyAt (p : Packet) (key : String) : Except Fault Value :=
  match p.body with
  | none => .error .nullDereference
  | some body => Value.mapAt body key

/-- What the runtime reads of a packet: its place in the buffers, and what the calls look up of it
there. -/
def incoming (p : Packet) : Except Fault (Incoming Value) := do
  let txId ← p.stringHeader 0
  if p.ptype = .respondExecute then do
    let idx ← p.uintHeader 1
    let finished ← p.boolHeader 2
    if ← p.status then
      return .respondExecute txId idx.toNat ⟨finished, .ok (← p.bodyAt "out")⟩
    else
      return .respondExecute txId idx.toNat
        ⟨finished, .error (← p.bodyAt "reason" >>= Value.asString)⟩
  else if ← p.status then
    return .respond txId (.ok ())
  else
    return .respond txId (.error (← p.bodyAt "reason" >>= Value.asString))

/-- The reply that a packet carries for the calls that wait for it. -/
def reply? (p : Packet) : Option (Reply Value) :=
  match p.incoming with
  | .ok (.respondExecute _ _ reply) => some reply
  | _ => none

/-- The place that a packet is stored at. -/
def place (p : Packet) : Option (TxId × ℕ) := p.incoming.toOption.bind Incoming.key

/-- A packet that the broker sends to a client. -/
inductive ForClient : Packet → Prop
  | respond (t : TxId) : ForClient (.respond t)
  | respondError (t : TxId) (reason : String) : ForClient (.respondError t reason)
  | output (t : TxId) (i : ℕ) (out : Output) : ForClient (out.packet t i)

end Packet

def Incoming.isTimeout {α : Type*} : Incoming α → Bool
  | .timeout => true
  | .respond _ _ | .respondExecute _ _ _ => false

/-- The reply that the packet of an output carries. -/
def Output.reply : Output → Reply Value
  | .ok val finish => ⟨finish, .ok val⟩
  | .error e => ⟨true, .error e.reason⟩

section Incoming

variable {t : TxId} {i : ℕ} {out : Output} {p : Packet}

theorem incoming_packet : (out.packet t i).incoming =
    .ok (.respondExecute t (UInt64.ofNat i).toNat out.reply) := by
  cases out <;> rfl

/-- The packets of the first outputs are the first packets. -/
theorem outputPackets_take (n : ℕ) (outs : List Output) :
    outputPackets t i (outs.take n) = (outputPackets t i outs).take n := by
  induction outs generalizing i n with
  | nil => simp [outputPackets]
  | cons out outs ih =>
    cases n with
    | zero => rfl
    | succ n => rw [List.take_succ_cons, outputPackets, outputPackets, List.take_succ_cons, ih]

/-- The packets of outputs carry their replies. -/
theorem replies_outputPackets (i : ℕ) (outs : List Output) :
    (outputPackets t i outs).filterMap Packet.reply? = outs.map Output.reply := by
  induction outs generalizing i with
  | nil => rfl
  | cons out outs ih =>
    have hreply : (out.packet t i).reply? = some out.reply := by
      rw [Packet.reply?, incoming_packet]
    rw [outputPackets, List.filterMap_cons_some hreply, ih, List.map_cons]

/-- A packet of outputs is the one of an output, by its number. -/
theorem mem_outputPackets {outs : List Output} : p ∈ outputPackets t 0 outs ↔
    ∃ (k : ℕ) (out : Output), outs[k]? = some out ∧ p = out.packet t k := by
  constructor
  · intro hp
    obtain ⟨k, hk, rfl⟩ := List.getElem_of_mem hp
    have hk' : k < outs.length := by simpa using hk
    refine ⟨k, outs[k], List.getElem?_eq_getElem hk', ?_⟩
    rw [getElem_outputPackets t 0 k outs hk hk', Nat.zero_add]
  · rintro ⟨k, out, hout, rfl⟩
    obtain ⟨hk, rfl⟩ := List.getElem?_eq_some_iff.mp hout
    have hk' : k < (outputPackets t 0 outs).length := by simpa using hk
    have hget := getElem_outputPackets t 0 k outs hk' hk
    rw [Nat.zero_add] at hget
    rw [← hget]
    exact List.getElem_mem hk'

/-- The runtime can read all that the broker sends to a client. -/
theorem Packet.ForClient.incoming (h : p.ForClient) : ∃ heard, p.incoming = .ok heard := by
  cases h with
  | respond t => exact ⟨.respond t (.ok ()), rfl⟩
  | respondError t reason => exact ⟨.respond t (.error reason), rfl⟩
  | output t i out => exact ⟨_, incoming_packet⟩

/-- Only a response of a transaction is stored under it. -/
theorem Packet.ForClient.responds {idx : ℕ} {reply : Reply Value} (h : p.ForClient)
    (hp : p.incoming = .ok (.respondExecute t idx reply)) : p.Responds t := by
  cases h with
  | respond t' => cases hp
  | respondError t' reason => cases hp
  | output t' i out =>
    rw [incoming_packet] at hp
    cases hp
    exact Output.responds_packet t i out

/-- Whether the place of a packet is one of a transaction. -/
theorem Packet.ForClient.place_filter (h : p.ForClient) :
    p.place.filter (fun x => x.1 = t) = if p.Responds t then p.place else none := by
  cases h with
  | respond t' | respondError t' => rw [if_neg (by rintro ⟨⟨⟩⟩)]; rfl
  | output t' i out =>
    have hplace : (out.packet t' i).place = some (t', (UInt64.ofNat i).toNat) := by
      rw [Packet.place, incoming_packet]
      rfl
    rw [hplace]
    by_cases ht : t' = t
    · simp [Option.filter, ht, responds_packet_iff]
    · simp [Option.filter, ht, responds_packet_iff]

/-- The replies of complete outputs are complete. -/
theorem completeReplies_of_complete {outs : List Output} (h : Complete outs) :
    CompleteReplies (outs.map Output.reply) := by
  obtain ⟨vals, last, rfl, hvals, hlast⟩ := h
  have hend : last.reply.finished = true := by cases last <;> exact hlast
  induction vals with
  | nil => exact hend
  | cons val vals ih =>
    have hval := hvals val (.head _)
    have hrest := ih fun o ho => hvals o (List.mem_cons_of_mem _ ho)
    -- An output that is not final is a result, and there is one behind it.
    cases val with
    | error e => cases hval
    | ok out fin =>
      cases vals with
      | nil => exact ⟨hval, ⟨out, rfl⟩, hrest⟩
      | cons next vals => exact ⟨hval, ⟨out, rfl⟩, hrest⟩

/-- The answer of the VM is complete. -/
theorem Vm.Outputs.complete {σ ω : Type} {vm : Vm σ ω} {q : Request} {outs : List Output}
    (h : vm.Outputs q outs) : Complete outs := by
  have hanswers : ∀ {code : OperatorCode σ} {s s' : σ} {input : Value},
      code.Answers s input outs (.ok s') → Complete outs := by
    intro code s s' input hanswers
    obtain ⟨vals, last, hlast, rfl⟩ := hanswers.outputs
    refine ⟨vals.map (.ok · false), last, rfl, fun o ho => ?_, ?_⟩
    · obtain ⟨val, -, rfl⟩ := List.mem_map.mp ho
      rfl
    · rcases hlast with ⟨val, rfl⟩ | ⟨e, rfl⟩ <;> rfl
  by_cases hcall : q.IsCall = false
  · obtain ⟨o, ho, hone⟩ := vm.outputs_single hcall
    rw [hone outs h]
    refine Tx.complete_singleton ?_
    rcases ho with rfl | ⟨e, rfl⟩ <;> rfl
  · cases q with
    | defineComponent | deleteComponent => exact absurd rfl hcall
    | callFunction opname input =>
      simp only [Outputs] at h
      cases hop : vm.operators.lookup opname with
      | none =>
        simp only [hop] at h
        rw [h]
        exact Tx.complete_singleton rfl
      | some op =>
        simp only [hop] at h
        obtain ⟨s, h⟩ := h
        exact hanswers h
    | callMethod compname opname input =>
      simp only [Outputs] at h
      cases hcomp : vm.components.lookup compname with
      | none =>
        simp only [hcomp] at h
        rw [h]
        exact Tx.complete_singleton rfl
      | some comp =>
        simp only [hcomp] at h
        cases hop : comp.ops.lookup opname with
        | none =>
          simp only [hop] at h
          rw [h]
          exact Tx.complete_singleton rfl
        | some code =>
          simp only [hop] at h
          obtain ⟨s, h⟩ := h
          exact hanswers h

end Incoming

namespace Sys

variable {σ ω : Type} {v : SocketName} {uuid : ℕ → TxId} {s s' : Sys σ ω} {t : TxId}
  {es h : List (SysEvent σ ω)} {c : SocketName} {env : ω}
  {r : Recorded (Sys σ ω) (SysEvent σ ω)}

/-! ## What a client takes -/

/-- What the broker puts in the mailboxes of clients. -/
theorem Moves.forClient {a : SysAct σ ω} (hm : Moves v uuid s a es s')
    (hc : c ≠ v) (hold : ∀ p ∈ s.net.mailbox c ++ tookBy c h, p.ForClient) :
    ∀ p ∈ s'.net.mailbox c ++ tookBy c (h ++ es), p.ForClient := by
  have hkeep : ∀ {s' : Sys σ ω}, s'.net.mailbox = s.net.mailbox → tookBy c es = [] →
      ∀ p ∈ s'.net.mailbox c ++ tookBy c (h ++ es), p.ForClient := by
    intro s' hmail hes
    rw [hmail, tookBy_append, hes, List.append_nil]
    exact hold
  have hdeliver : ∀ {dest : SocketName} {pkt : Packet} (b : Broker) (rest : List Packet)
      (o : SocketName), (dest = c → pkt.ForClient) →
      ∀ p ∈ ((s.net.received o b rest).deliver dest pkt).1.mailbox c ++ tookBy c (h ++ []),
        p.ForClient := by
    intro dest pkt b rest o hpkt p hp
    rw [List.append_nil] at hp
    rcases List.mem_append.mp hp with hp | hp
    · rcases Net.mem_deliver_mailbox hp with hp | ⟨rfl, rfl⟩
      · exact hold p (List.mem_append_left _ hp)
      · exact hpkt rfl
    · exact hold p (List.mem_append_right _ hp)
  cases hm with
  | idle | accept | vanish | vmSend | vmDrop | vmAbort => exact hkeep rfl rfl
  | client m => exact hkeep rfl (by cases m <;> rfl)
  | @take o pkt rest ho hq =>
    rw [tookBy_append]
    by_cases hoc : o = c
    · -- The packet goes from the mailbox to the history.
      subst hoc
      have htook : tookBy o [SysEvent.took o pkt (σ := σ) (ω := ω)] = [pkt] := by simp [tookBy]
      simp only [Function.update_self, htook]
      intro p hp
      refine hold p ?_
      rw [hq]
      simp only [List.mem_append, List.mem_cons, List.not_mem_nil, or_false] at hp ⊢
      rcases hp with hp | hp | hp
      · exact .inl (.inr hp)
      · exact .inr hp
      · exact .inl (.inl hp)
    · have htook : tookBy c [SysEvent.took o pkt (σ := σ) (ω := ω)] = [] := by simp [tookBy, hoc]
      simp only [Function.update_of_ne (Ne.symm hoc), htook, List.append_nil]
      exact hold
  | @reply o msg reply rest b hq _ _ _ _ _ hfor hpt =>
    refine hdeliver b rest o fun _ => ?_
    cases hfor with
    | execute t q => cases hpt
    | respond t => exact .respond t
    | respondError t reason => exact .respondError t reason
  | @refuse o t q rest ho hq =>
    exact hdeliver _ rest o fun _ => .output t 0 (.error ⟨_⟩)
  | @forward o t q rest ho hq => exact hdeliver _ rest o fun heq => absurd heq.symm hc
  | @relay o t i out rest b ho hq => exact hdeliver b rest v fun _ => .output t i out
  | vm => exact hkeep rfl (tookBy_produced c _)
  | @vmRecv pkt rest pkts loop hout hq hloop =>
    rw [tookBy_append]
    have htook : tookBy c (SysEvent.handled pkt s.loop.vm loop.vm :: pkts.map .produced) = [] :=
      tookBy_produced c pkts
    simp only [Function.update_of_ne hc, htook, List.append_nil]
    exact hold

/-- Clients get responses only. -/
theorem forClient_of_reach (hr : Reach (recordedStep v uuid) (recordedStart v env) r)
    (hc : c ≠ v) : ∀ p ∈ tookBy c r.history, p.ForClient := by
  suffices hall : ∀ p ∈ r.state.net.mailbox c ++ tookBy c r.history, p.ForClient from
    fun p hp => hall p (List.mem_append_right _ hp)
  refine hr.invariant (P := fun r : Recorded (Sys σ ω) (SysEvent σ ω) =>
    ∀ p ∈ r.state.net.mailbox c ++ tookBy c r.history, p.ForClient) (by rintro p ⟨⟩) ?_
  rintro ⟨s, h⟩ a ⟨s', h'⟩ hreach hold _ hstep
  obtain ⟨hstep, rfl⟩ := record_eq_some_iff.mp hstep
  have ht : s.Traffic v := traffic_of_reach (hreach.state fun _ _ _ => trivial)
  exact (moves_of_step ht hstep).forClient hc hold

/-- The responses of a transaction that a client has taken are packets of outputs, in order. -/
theorem responses_of_reach
    (hr : ReachVia (recordedStep v uuid) (Kept v) (recordedStart v env) r) (c : SocketName)
    (t : TxId) : ∃ outs, responsesOf t (tookBy c r.history) = outputPackets t 0 outs := by
  have hhanded : (tx v t r.state r.history).handed c =
      responsesOf t (tookBy c r.history) ++ responsesOf t (r.state.net.mailbox c) := by
    simp only [tx, responsesOf_append]
  -- Whatever the stage, what the client has been handed is a first part of such packets.
  suffices hpre : ∃ outs, (tx v t r.state r.history).handed c <+: outputPackets t 0 outs by
    obtain ⟨outs, hpre⟩ := hpre
    rw [hhanded] at hpre
    have htook := (List.prefix_append _ _).trans hpre
    refine ⟨outs.take (responsesOf t (tookBy c r.history)).length, ?_⟩
    rw [List.prefix_iff_eq_take] at htook
    rw [outputPackets_take, ← htook]
  have hstage := stage_of_reach hr t
  generalize tx v t r.state r.history = x at *
  have honly : ∀ {c' : SocketName} {handed : List Packet} {outs : List Output},
      handed <+: outputPackets t 0 outs → only c' handed c <+: outputPackets t 0 outs := by
    intro c' handed outs hpre
    by_cases hc : c = c'
    · rw [hc, only_self]
      exact hpre
    · rw [only_of_ne hc]
      exact List.nil_prefix
  cases hstage with
  | absent | waiting | forwarded => exact ⟨[], List.nil_prefix⟩
  | refused c' q => exact ⟨[.error ⟨_⟩], honly (List.prefix_refl [refusal t])⟩
  | @working c' q vm call outs handed pending _ _ _ _ hpkts _ =>
    exact ⟨outs, honly (by rw [← hpkts]; exact List.prefix_append _ _)⟩
  | @answered c' q vm outs handed pending _ _ hpkts _ _ =>
    exact ⟨outs, honly (by rw [← hpkts]; exact List.prefix_append _ _)⟩

/-- What `client.listen()` gives the client `c`, in order: the packets that it takes, and timeouts
anywhere. -/
def Hears (c : SocketName) (h : List (SysEvent σ ω)) (incoming : List (Incoming Value)) : Prop :=
  incoming.filter (fun p => !p.isTimeout) =
    (tookBy c h).filterMap fun p => p.incoming.toOption

/-- The replies of the responses that the client `c` has taken. -/
def repliesTo (c : SocketName) (h : List (SysEvent σ ω)) (t : TxId) : List (Reply Value) :=
  (responsesOf t (tookBy c h)).filterMap Packet.reply?

section Hears

variable {incoming : List (Incoming Value)}

/-- What is heard of a transaction is what its responses say. -/
theorem repliesTo_eq {outs : List Output}
    (houts : responsesOf t (tookBy c h) = outputPackets t 0 outs) :
    repliesTo c h t = outs.map Output.reply := by
  rw [repliesTo, houts, replies_outputPackets]

/-- A reply that is heard comes with a packet that the client has taken. -/
theorem Hears.mem (hin : Hears c h incoming) {i : ℕ} {reply : Reply Value} :
    .respondExecute t i reply ∈ incoming ↔
      ∃ p ∈ tookBy c h, p.incoming = .ok (.respondExecute t i reply) := by
  have hfilter : .respondExecute t i reply ∈ incoming ↔
      .respondExecute t i reply ∈ incoming.filter (fun p => !p.isTimeout) := by
    simp [Incoming.isTimeout]
  rw [hfilter, hin, List.mem_filterMap]
  refine exists_congr fun p => and_congr_right fun _ => ?_
  cases p.incoming with
  | error f => simp [Except.toOption]
  | ok heard => simp [Except.toOption]

/-- The places of what is heard are those of the packets. -/
theorem Hears.keys (hin : Hears c h incoming) : incoming.filterMap Incoming.key =
    (tookBy c h).filterMap Packet.place := by
  have hdrop : incoming.filterMap Incoming.key =
      (incoming.filter (fun p => !p.isTimeout)).filterMap Incoming.key := by
    rw [List.filterMap_filter]
    refine List.filterMap_congr fun p _ => ?_
    cases p <;> rfl
  rw [hdrop, hin, List.filterMap_filterMap]
  rfl

end Hears

/-- The places of a transaction's packets are numbered. -/
theorem places_outputPackets (i : ℕ) (outs : List Output) :
    (outputPackets t i outs).filterMap Packet.place =
      (List.range' i outs.length).map fun k => (t, (UInt64.ofNat k).toNat) := by
  induction outs generalizing i with
  | nil => rfl
  | cons out outs ih =>
    have hplace : (out.packet t i).place = some (t, (UInt64.ofNat i).toNat) := by
      rw [Packet.place, incoming_packet]
      rfl
    rw [outputPackets, List.filterMap_cons_some hplace, ih, List.length_cons, List.range'_succ,
      List.map_cons]

/-- The responses that a client takes carry the replies of each transaction once, as long as their
numbers do not wrap. -/
theorem carries_of_reach
    (hr : ReachVia (recordedStep v uuid) (Kept v) (recordedStart v env) r) (hc : c ≠ v)
    (hshort : (tookBy c r.history).length ≤ 2 ^ 64) {incoming : List (Incoming Value)}
    (hin : Hears c r.history incoming) : Carries (repliesTo c r.history) incoming := by
  have hclient := forClient_of_reach (hr.mono fun _ _ _ => trivial) hc
  have hwrap : ∀ {t : TxId} {outs : List Output},
      responsesOf t (tookBy c r.history) = outputPackets t 0 outs →
      ∀ k < outs.length, (UInt64.ofNat k).toNat = k := by
    intro t outs houts k hk
    have hlen : (responsesOf t (tookBy c r.history)).length ≤ (tookBy c r.history).length :=
      List.length_filter_le ..
    rw [houts, length_outputPackets] at hlen
    rw [UInt64.toNat_ofNat', Nat.mod_eq_of_lt (by omega)]
  constructor
  · -- Two packets at one place would be two of one transaction with one number.
    rw [hin.keys, List.nodup_iff_count_le_one]
    rintro ⟨t, i⟩
    obtain ⟨outs, houts⟩ := responses_of_reach hr c t
    have hplaces : ((tookBy c r.history).filterMap Packet.place).filter (fun x => x.1 = t) =
        (List.range outs.length).map fun k => (t, k) := by
      have hpart : ((tookBy c r.history).filterMap Packet.place).filter (fun x => x.1 = t) =
          (responsesOf t (tookBy c r.history)).filterMap Packet.place := by
        rw [responsesOf, List.filter_filterMap, List.filterMap_filter]
        refine List.filterMap_congr fun p hp => ?_
        simp only [decide_eq_true_eq]
        exact (hclient p hp).place_filter
      rw [hpart, houts, places_outputPackets, List.range_eq_range']
      refine List.map_congr_left fun k hk => ?_
      rw [hwrap houts k (by simpa using hk)]
    have hnodup : ((List.range outs.length).map fun k => (t, k)).Nodup :=
      List.nodup_range.map fun k k' heq => (Prod.mk.inj heq).2
    rw [← hplaces] at hnodup
    have hone := List.nodup_iff_count_le_one.mp hnodup (t, i)
    rwa [List.count_filter (by simp)] at hone
  · intro t i reply
    obtain ⟨outs, houts⟩ := responses_of_reach hr c t
    rw [hin.mem, repliesTo_eq houts, List.getElem?_map, Option.map_eq_some_iff]
    constructor
    · rintro ⟨p, hp, hheard⟩
      have hmem : p ∈ responsesOf t (tookBy c r.history) :=
        List.mem_filter.mpr ⟨hp, decide_eq_true ((hclient p hp).responds hheard)⟩
      rw [houts] at hmem
      obtain ⟨k, out, hout, rfl⟩ := mem_outputPackets.mp hmem
      obtain ⟨hk, -⟩ := List.getElem?_eq_some_iff.mp hout
      rw [incoming_packet, hwrap houts k hk] at hheard
      obtain ⟨-, rfl, rfl⟩ := Incoming.respondExecute.inj (Except.ok.inj hheard)
      exact ⟨out, hout, rfl⟩
    · rintro ⟨out, hout, rfl⟩
      have hmem : out.packet t i ∈ outputPackets t 0 outs :=
        mem_outputPackets.mpr ⟨i, out, hout, rfl⟩
      obtain ⟨hi, -⟩ := List.getElem?_eq_some_iff.mp hout
      rw [← houts] at hmem
      refine ⟨out.packet t i, List.mem_of_mem_filter hmem, ?_⟩
      rw [incoming_packet, hwrap houts i hi]

/-! ## The generators -/

/-- What the runtime gives its caller for a transaction with the answer `outs`: the pulls of a
generator so far have given its outputs in order, the next pull ends and gives what comes next, and a
definition or a deletion has ended as the answer says. -/
structure GivesAnswer (s : SyncRuntime Value) (t : TxId) (outs : List Output) : Prop where
  given : ∀ g, s.calls t = some (.generator g) → Gives (outs.map Output.reply) (s.log t)
  pull : ∀ g, s.calls t = some (.generator g) →
    ∃ o s', outcome (outs.map Output.reply) (s.log t).length = some o ∧
      s.step (.pull t) = some s' ∧ s'.log = Function.update s.log t (s.log t ++ [o])
  ended : ∀ result, s.calls t = some (.single result) →
    SyncRuntime.singleResult (outs.map Output.reply) = some result

/-- The answers that a client has taken whole, as replies: those of one VM that serves the requests of
all clients, or the broker's refusal. -/
theorem answers_of_reach
    (hr : ReachVia (recordedStep v uuid) (Kept v) (recordedStart v env) r) :
    ∃ mods ops, Explains (.imported env mods) ops r ∧ ∀ c t, Finished c t r.history →
      ∃ outs, Complete outs ∧ repliesTo c r.history t = outs.map Output.reply ∧
        ((∃ q, (t, q, outs) ∈ ops) ∨ (∀ x ∈ ops, x.1 ≠ t) ∧
          outs = [.error ⟨"There is no channel can handle this request"⟩]) := by
  obtain ⟨r₀, ops, -, -, -, ⟨mods, hmods⟩, hserved⟩ := hasServed_of_reach hr
  rw [hmods] at hserved
  have hexplains := hserved.explains hr
  refine ⟨mods, ops, hexplains, fun c t hfin => ?_⟩
  rcases hexplains.answers c t hfin with ⟨htook, hnot⟩ | ⟨q, outs, hop, htook⟩
  · refine ⟨_, Tx.complete_singleton rfl, ?_, .inr ⟨hnot, rfl⟩⟩
    exact repliesTo_eq htook
  · obtain ⟨pkt, vm, -, houts⟩ := hserved.answered t q outs hop
    exact ⟨outs, houts.complete, repliesTo_eq htook, .inl ⟨q, hop⟩⟩

/-- The runtime gives its caller the answers, when it hears their replies. -/
theorem givesAnswer_of_serves {replies : TxId → List (Reply Value)} {s : SyncRuntime Value}
    (hs : SyncRuntime.Serves replies s) {outs : List Output} (hcomp : Complete outs)
    (houts : replies t = outs.map Output.reply) : GivesAnswer s t outs := by
  have howes := hs.owes
  have hreplies := completeReplies_of_complete hcomp
  rw [← houts] at hreplies
  constructor
  · intro g hg
    rw [← houts]
    exact howes.given t g hg
  · intro g hg
    -- The replies of a complete answer say what any pull gives.
    obtain ⟨o, ho⟩ : ∃ o, outcome (replies t) (s.log t).length = some o := by
      cases hr : (replies t)[(s.log t).length]? with
      | some reply => exact ⟨_, hreplies.outcome_eq hr⟩
      | none => exact ⟨_, hreplies.outcome_stops (List.getElem?_eq_none_iff.mp hr)⟩
    obtain ⟨s', hstep, hlog⟩ := howes.pull t g hg o ho
    rw [← houts]
    exact ⟨o, s', ho, hstep, hlog⟩
  · intro result hresult
    rw [← houts]
    exact howes.ended t result hresult

/-- What the client `c` of the run hears: a timeout, and the two replies to its call. -/
def countingIncoming : List (Incoming Value) :=
  [.timeout, .respondExecute "t" 0 ⟨false, .ok (.uint 0)⟩,
    .respondExecute "t" 1 ⟨true, .ok (.uint 1)⟩]

/-- The run in which `c` hears them. -/
theorem reach_counting : ∃ r : Recorded (Sys OperatorState Unit) _,
    ReachVia (recordedStep "vm" fun n => toString n) (Kept "vm") (recordedStart "vm" ()) r ∧
      Finished "c" "t" r.history ∧ Hears "c" r.history countingIncoming ∧
      (tookBy "c" r.history).length = 2 := by
  have hmeets : Meets (recordedStep "vm" fun n => toString n) (Kept "vm") (recordedStart "vm" ())
      (servingRun ++ twoClientsRun) := by decide
  have hend : (run (recordedStep "vm" fun n => toString n) (recordedStart "vm" ())
      (servingRun ++ twoClientsRun)).map (fun r => (decide (Finished "c" "t" r.history),
        (tookBy "c" r.history).filterMap fun p => p.incoming.toOption,
        (tookBy "c" r.history).length)) =
      some (true, countingIncoming.filter (fun p => !p.isTimeout), 2) := rfl
  obtain ⟨r, hrun, hr⟩ := Option.map_eq_some_iff.mp hend
  obtain ⟨hfin, hheard⟩ := Prod.mk.inj hr
  obtain ⟨hheard, hlen⟩ := Prod.mk.inj hheard
  exact ⟨r, ReachVia.init.of_run hmeets hrun, of_decide_eq_true hfin, hheard.symm, hlen⟩

/-- What a run of the asynchronous runtime gives the call of a transaction with the answer `outs`: the
replies of the answer in order, all of them when the call ends by itself, and all of them in the next
steps when they have come and no step was careless. -/
structure StreamsAnswer (as : List (AsyncAct Value)) (incoming : List (Incoming Value))
    (s : AsyncRuntime Value) (t : TxId) (outs : List Output) : Prop where
  reads : ∀ task, s.tasks t = some task → task.log = (outs.map Output.reply).take task.idx
  whole : ∀ task, s.tasks t = some task → task.stage = .finishing →
    task.log = outs.map Output.reply
  served : Meets AsyncRuntime.step AsyncRuntime.Careful .initial as →
    (∀ i reply, .respondExecute t i reply ∈ incoming →
      .respondExecute t i reply ∈ AsyncRuntime.delivered as) →
    ∀ task, s.tasks t = some task → task.stage = .looping →
      ∃ as' s' task', run AsyncRuntime.step s as' = some s' ∧ (∀ a ∈ as', a.Quiet) ∧
        s'.tasks t = some task' ∧ task'.stage ≠ .looping ∧
        task'.log = AsyncRuntime.answer task.iter (outs.map Output.reply)

/-- A program that uses the asynchronous runtime, in every run of the system in which no packet of a
request is lost, and in every schedule of its calls, cancellations and threads: each call whose last
response has been taken from the mailbox gets the answer, which is that of a VM that serves one
request after the other, or the broker's refusal. -/
theorem streams_served
    (hr : ReachVia (recordedStep v uuid) (Kept v) (recordedStart v env) r) (hc : c ≠ v)
    (hshort : (tookBy c r.history).length ≤ 2 ^ 64) {incoming : List (Incoming Value)}
    (hin : Hears c r.history incoming) {as : List (AsyncAct Value)} {s : AsyncRuntime Value}
    (hd : AsyncRuntime.delivered as <+: incoming)
    (hs : run AsyncRuntime.step .initial as = some s) :
    ∃ mods ops, Explains (.imported env mods) ops r ∧
      ∀ t, Finished c t r.history → ∃ outs, StreamsAnswer as incoming s t outs ∧
        ((∃ q, (t, q, outs) ∈ ops) ∨ (∀ x ∈ ops, x.1 ≠ t) ∧
          outs = [.error ⟨"There is no channel can handle this request"⟩]) := by
  have hcarries := carries_of_reach hr hc hshort hin
  have hheard : ∀ t i reply, .respondExecute t i reply ∈ AsyncRuntime.delivered as →
      (repliesTo c r.history t)[i]? = some reply := fun t i reply hmem =>
    (hcarries.mem t i reply).mp (hd.subset hmem)
  have hstreams := (AsyncRuntime.streams_initial.run AsyncRuntime.regular_initial hs hheard).1
  obtain ⟨mods, ops, hexplains, hanswers⟩ := answers_of_reach hr
  refine ⟨mods, ops, hexplains, fun t hfin => ?_⟩
  obtain ⟨outs, hcomp, houts, hop⟩ := hanswers c t hfin
  have hreplies := completeReplies_of_complete hcomp
  refine ⟨outs, ?_, hop⟩
  rw [← houts] at hreplies
  constructor
  · intro task htask
    rw [← houts]
    exact (hstreams.reads t task htask).log
  · intro task htask hstage
    rw [← houts]
    exact AsyncRuntime.log_eq_of_finishing hreplies (hstreams.reads t task htask) hstage
  · intro hcareful hall task htask hstage
    rw [← houts]
    refine (AsyncRuntime.live_of_run hs hcareful hheard).served hreplies ?_ htask hstage
    exact fun i reply hreply => hall i reply ((hcarries.mem t i reply).mpr hreply)

/-- The client's call listens three times and has taken its first reply. The second has come. -/
def countingTasks : List (AsyncAct Value) :=
  [.call "t" true, .run "t", .listenReturns 0 .timeout, .run "t",
    .listenReturns 1 (.respondExecute "t" 0 ⟨false, .ok (.uint 0)⟩), .run "t", .run "t",
    .listenReturns 2 (.respondExecute "t" 1 ⟨true, .ok (.uint 1)⟩)]

theorem streams_served_twoClientsRun : ∃ (r : Recorded (Sys OperatorState Unit) _)
    (s : AsyncRuntime Value),
    ReachVia (recordedStep "vm" fun n => toString n) (Kept "vm") (recordedStart "vm" ()) r ∧
      Finished "c" "t" r.history ∧ Hears "c" r.history countingIncoming ∧
      AsyncRuntime.delivered countingTasks = countingIncoming ∧
      run AsyncRuntime.step .initial countingTasks = some s ∧
      (s.tasks "t").map (fun task => (task.stage, task.log)) =
        some (.looping, [⟨false, .ok (.uint 0)⟩]) ∧
      Meets AsyncRuntime.step AsyncRuntime.Careful .initial countingTasks ∧
      ∃ mods ops, Explains (.imported () mods) ops r ∧
        ∀ t, Finished "c" t r.history →
          ∃ outs, StreamsAnswer countingTasks countingIncoming s t outs ∧
            ((∃ q, (t, q, outs) ∈ ops) ∨ (∀ x ∈ ops, x.1 ≠ t) ∧
              outs = [.error ⟨"There is no channel can handle this request"⟩]) := by
  obtain ⟨r, hreach, hfin, hhears, hlen⟩ := reach_counting
  have hruntime : (run AsyncRuntime.step .initial countingTasks).map (fun s =>
      (s.tasks "t").map fun task => (task.stage, task.log)) =
        some (some (.looping, [⟨false, .ok (.uint 0)⟩])) := rfl
  have hcareful : Meets AsyncRuntime.step AsyncRuntime.Careful .initial countingTasks :=
    meets_of_forall (by
      intro a ha s
      simp only [countingTasks, List.mem_cons, List.not_mem_nil, or_false] at ha
      rcases ha with rfl | rfl | rfl | rfl | rfl | rfl | rfl | rfl <;> trivial)
  obtain ⟨s, hs, htask⟩ := Option.map_eq_some_iff.mp hruntime
  exact ⟨r, s, hreach, hfin, hhears, rfl, hs, htask, hcareful,
    streams_served hreach (by decide) (by omega) hhears (List.prefix_refl _) hs⟩

/-! ## Promises -/

/-- What a run of the runtime of JavaScript settles the promises of the transaction with the answer
`outs` with, when its `next()` come one after the other: the outputs in order, one for each call but
the one that waits, and none waits when all responses have arrived and no step was careless. -/
structure PromisesAnswer (replies : TxId → List (Reply Value)) (as : List JsAct)
    (s : JsRuntime Value) (t : TxId) (outs : List Output) : Prop where
  results : Meets (JsRuntime.step replies) (JsRuntime.Sequential t) .initial as →
    Gives (outs.map Output.reply) (s.settled t) ∧
      s.asked t = (s.settled t).length + if s.execResolvers t = none then 0 else 1
  settles : Meets (JsRuntime.step replies) (JsRuntime.Sequential t) .initial as →
    Meets (JsRuntime.step replies) (JsRuntime.Careful replies t) .initial as →
    (∀ i < outs.length, (t, i) ∈ s.arrived) → (s.settled t).length = s.asked t

/-- A program that uses the runtime of JavaScript, in every run of the system in which no packet of a
request is lost, and in every order in which the responses that the client has taken arrive between
the calls of the program: the promises of each transaction whose last response has been taken are
settled with the answer, which is that of a VM that serves one request after the other, or the
broker's refusal. -/
theorem promises_served
    (hr : ReachVia (recordedStep v uuid) (Kept v) (recordedStart v env) r) (c : SocketName)
    {as : List JsAct} {s : JsRuntime Value}
    (hs : run (JsRuntime.step (repliesTo c r.history)) .initial as = some s) :
    ∃ mods ops, Explains (.imported env mods) ops r ∧
      ∀ t, Finished c t r.history →
        ∃ outs, PromisesAnswer (repliesTo c r.history) as s t outs ∧
          ((∃ q, (t, q, outs) ∈ ops) ∨ (∀ x ∈ ops, x.1 ≠ t) ∧
            outs = [.error ⟨"There is no channel can handle this request"⟩]) := by
  obtain ⟨mods, ops, hexplains, hanswers⟩ := answers_of_reach hr
  refine ⟨mods, ops, hexplains, fun t hfin => ?_⟩
  obtain ⟨outs, hcomp, houts, hop⟩ := hanswers c t hfin
  refine ⟨outs, ?_, hop⟩
  have hreplies : CompleteReplies (repliesTo c r.history t) := by
    rw [houts]
    exact completeReplies_of_complete hcomp
  constructor
  · intro hseq
    have horderly := JsRuntime.orderly_of_run hreplies hseq hs
    rw [← houts]
    exact ⟨horderly.results, horderly.counted⟩
  · intro hseq hcareful hall
    have horderly := JsRuntime.orderly_of_run hreplies hseq hs
    have hcounted : s.asked t =
      (s.settled t).length + if s.execResolvers t = none then 0 else 1 := horderly.counted
    cases hwaits : s.execResolvers t with
    | none =>
      rw [hwaits, if_pos rfl] at hcounted
      exact hcounted.symm
    | some i =>
      -- The reply that is waited for exists, so it has arrived.
      have hi := JsRuntime.resolver_of_run hreplies hseq hcareful hs hwaits
      rw [houts, List.length_map] at hi
      exact absurd (hall i hi) (horderly.waiting i hwaits).2

/-- The first reply is kept until `next()` asks for it, and the second one comes when it is waited
for. -/
def countingPromises : List JsAct :=
  [.callIter "t", .arrive "t" 0, .next "t", .next "t", .arrive "t" 1, .next "t"]

theorem promises_served_twoClientsRun : ∃ (r : Recorded (Sys OperatorState Unit) _)
    (s : JsRuntime Value),
    ReachVia (recordedStep "vm" fun n => toString n) (Kept "vm") (recordedStart "vm" ()) r ∧
      Finished "c" "t" r.history ∧
      run (JsRuntime.step (repliesTo "c" r.history)) .initial countingPromises = some s ∧
      s.settled "t" = [.yields (.uint 0), .yields (.uint 1), .stops] ∧
      ∃ mods ops, Explains (.imported () mods) ops r ∧
        ∀ t, Finished "c" t r.history →
          ∃ outs, PromisesAnswer (repliesTo "c" r.history) countingPromises s t outs ∧
            ((∃ q, (t, q, outs) ∈ ops) ∨ (∀ x ∈ ops, x.1 ≠ t) ∧
              outs = [.error ⟨"There is no channel can handle this request"⟩]) := by
  have hmeets : Meets (recordedStep "vm" fun n => toString n) (Kept "vm") (recordedStart "vm" ())
      (servingRun ++ twoClientsRun) := by decide
  have hend : (run (recordedStep "vm" fun n => toString n) (recordedStart "vm" ())
      (servingRun ++ twoClientsRun)).map (fun r => (decide (Finished "c" "t" r.history),
        (run (JsRuntime.step (repliesTo "c" r.history)) .initial countingPromises).map fun s =>
          s.settled "t")) =
      some (true, some [.yields (.uint 0), .yields (.uint 1), .stops]) := rfl
  obtain ⟨r, hrun, hr⟩ := Option.map_eq_some_iff.mp hend
  obtain ⟨hfin, hpromises⟩ := Prod.mk.inj hr
  obtain ⟨s, hs, hsettled⟩ := Option.map_eq_some_iff.mp hpromises
  have hreach := ReachVia.init.of_run hmeets hrun
  exact ⟨r, s, hreach, of_decide_eq_true hfin, hs, hsettled, promises_served hreach "c" hs⟩

end Sys

end Ailoy
