import Ailoy.Lib.SequentialObject
import Ailoy.System.Responses

/-!
# The order of the requests

The VM handles the requests of a client in the order in which the client has made them, also when
the client does not wait for any response (`served_in_order`). The reason is that all queues between
them are first in, first out: `line` is what the VM has handled, followed by its mailbox, followed by
the client's packets that the broker has not handled, and the client's requests in that line are in
their order.
-/

namespace Ailoy.Sys

open Transition

variable {σ ω : Type} {v : SocketName} {uuid : ℕ → TxId} {s s' : Sys σ ω} {t : TxId}
  {h h' es : List (SysEvent σ ω)}

/-- The requests that the VM has handled, with their transactions. -/
def served (h : List (SysEvent σ ω)) : List (TxId × Request) :=
  h.filterMap fun
    | .handled pkt _ _ => pkt.executeId.bind fun t => pkt.request?.map fun q => (t, q)
    | _ => none

/-- The transactions that the client of `c` has requested. -/
def askedBy (c : SocketName) (h : List (SysEvent σ ω)) : List TxId :=
  h.filterMap fun
    | .requested c' t _ => if c' = c then some t else none
    | _ => none

/-- The transactions of the `execute` packets in a queue. -/
def executeIds (q : List Packet) : List TxId := q.filterMap Packet.executeId

/-- The way of a client's requests, from its end: what the VM has handled, the VM's mailbox, and the
client's packets at the broker. -/
def line (v : SocketName) (s : Sys σ ω) (h : List (SysEvent σ ω)) (c : SocketName) : List TxId :=
  (served h).map Prod.fst ++ executeIds (s.net.mailbox v) ++ executeIds (s.net.inbox c)

/-- The requests of each client are in their order on the way. -/
def InOrder (v : SocketName) (s : Sys σ ω) (h : List (SysEvent σ ω)) : Prop :=
  ∀ c, ((line v s h c).filter (· ∈ askedBy c h)).Sublist (askedBy c h)

/-! ## The lists -/

section Lists

theorem served_append : served (h ++ es) = served h ++ served es := List.filterMap_append

theorem askedBy_append (c : SocketName) : askedBy c (h ++ es) = askedBy c h ++ askedBy c es :=
  List.filterMap_append

@[simp] theorem served_produced (pkts : List Packet) :
    served (pkts.map (.produced : Packet → SysEvent σ ω)) = [] := by
  simp [served, List.filterMap_map]

@[simp] theorem askedBy_produced (c : SocketName) (pkts : List Packet) :
    askedBy c (pkts.map (.produced : Packet → SysEvent σ ω)) = [] := by
  simp [askedBy, List.filterMap_map]

theorem mem_served_iff {q : Request} : (t, q) ∈ served h ↔
    ∃ pkt before after, .handled pkt before after ∈ h ∧ pkt.executeId = some t ∧
      pkt.request? = some q := by
  constructor
  · intro hmem
    obtain ⟨e, he, heq⟩ := List.mem_filterMap.mp hmem
    cases e with
    | handled pkt before after =>
      obtain ⟨t', hid, hreq⟩ := Option.bind_eq_some_iff.mp heq
      obtain ⟨q', hq, hpair⟩ := Option.map_eq_some_iff.mp hreq
      obtain ⟨rfl, rfl⟩ := Prod.mk.inj hpair
      exact ⟨pkt, before, after, he, hid, hq⟩
    | _ => cases heq
  · rintro ⟨pkt, before, after, he, hid, hq⟩
    exact List.mem_filterMap.mpr ⟨_, he, by simp [hid, hq]⟩

theorem mem_askedBy_iff {c : SocketName} : t ∈ askedBy c h ↔ ∃ q, (c, q) ∈ requestsOf t h := by
  constructor
  · intro hmem
    obtain ⟨e, he, heq⟩ := List.mem_filterMap.mp hmem
    cases e with
    | requested c' t' q =>
      simp only [Option.ite_none_right_eq_some, Option.some.injEq] at heq
      obtain ⟨rfl, rfl⟩ := heq
      exact ⟨q, mem_requestsOf he⟩
    | _ => cases heq
  · rintro ⟨q, hq⟩
    obtain ⟨e, he, heq⟩ := List.mem_filterMap.mp hq
    cases e with
    | requested c' t' q' =>
      simp only [Option.ite_none_right_eq_some, Option.some.injEq, Prod.mk.injEq] at heq
      obtain ⟨rfl, rfl, rfl⟩ := heq
      exact List.mem_filterMap.mpr ⟨_, he, by simp⟩
    | _ => cases heq

/-- A transaction is served as often as it is handled, at most. -/
theorem count_served_le (h : List (SysEvent σ ω)) :
    ((served h).map Prod.fst).count t ≤ (handledOf t h).length := by
  induction h with
  | nil => rfl
  | cons e h ih =>
    cases e with
    | handled pkt before after =>
      cases hid : pkt.executeId with
      | none => simpa [served, handledOf, hid] using ih
      | some t' =>
        cases hreq : pkt.request? with
        | none =>
          by_cases ht : t' = t
          · have hle : (handledOf t h).length ≤
                (handledOf t (.handled pkt before after :: h)).length := by
              simp [handledOf, hid, ht]
            refine le_trans ?_ hle
            simpa [served, hid, hreq] using ih
          · simpa [served, handledOf, hid, hreq, ht] using ih
        | some q =>
          by_cases ht : t' = t
          · simpa [served, handledOf, hid, hreq, ht] using ih
          · simpa [served, handledOf, hid, hreq, ht] using ih
    | _ => simpa [served, handledOf] using ih

/-- A transaction is asked for by a client as often as it is requested, at most. -/
theorem count_askedBy_le (c : SocketName) (h : List (SysEvent σ ω)) :
    (askedBy c h).count t ≤ (requestsOf t h).length := by
  induction h with
  | nil => rfl
  | cons e h ih =>
    cases e with
    | requested c' t' q =>
      by_cases hc : c' = c
      · by_cases ht : t' = t
        · simpa [askedBy, requestsOf, hc, ht] using ih
        · simpa [askedBy, requestsOf, hc, ht] using ih
      · by_cases ht : t' = t
        · have hle : (requestsOf t h).length ≤ (requestsOf t (.requested c' t' q :: h)).length := by
            simp [requestsOf, ht]
          refine le_trans ?_ hle
          simpa [askedBy, hc] using ih
        · simpa [askedBy, requestsOf, hc, ht] using ih
    | _ => simpa [askedBy, requestsOf] using ih

theorem executeIds_append (q q' : List Packet) :
    executeIds (q ++ q') = executeIds q ++ executeIds q' := List.filterMap_append

/-- The queues without the first packet of one. -/
theorem executeIds_rest {f : SocketName → List Packet} {c : SocketName} {p : Packet}
    {rest : List Packet} (hq : f c = p :: rest) (o : SocketName) :
    (executeIds (Function.update f c rest o)).Sublist (executeIds (f o)) := by
  by_cases ho : o = c
  · subst ho
    rw [Function.update_self, hq]
    exact (List.sublist_cons_self p rest).filterMap _
  · rw [Function.update_of_ne ho]

/-- The queues with one more packet that is no `execute`. -/
theorem executeIds_put {f : SocketName → List Packet} {c : SocketName} {p : Packet}
    (hp : p.executeId = none) (o : SocketName) :
    executeIds (Function.update f c (f c ++ [p]) o) = executeIds (f o) := by
  by_cases ho : o = c
  · subst ho
    rw [Function.update_self, executeIds_append]
    simp [executeIds, hp]
  · rw [Function.update_of_ne ho]

/-- The mailboxes after a send of the broker of a packet that is no `execute`. -/
theorem executeIds_deliver {n : Net} {c : SocketName} {pkt : Packet} (hp : pkt.executeId = none)
    (o : SocketName) : executeIds ((n.deliver c pkt).1.mailbox o) = executeIds (n.mailbox o) := by
  rw [Net.deliver_mailbox]
  split_ifs
  · exact executeIds_put hp o
  · rfl

theorem executeId_none_of_ptype {p : Packet} (hp : p.ptype ≠ .execute) : p.executeId = none := by
  simp [Packet.executeId, hp]

end Lists

/-! ## The steps -/

/-- Nothing new comes on the way, and no client requests anything. -/
theorem InOrder.of_lines (ho : s.InOrder v h) (hasked : ∀ c, askedBy c h' = askedBy c h)
    (hline : ∀ c, (line v s' h' c).Sublist (line v s h c)) : s'.InOrder v h' := by
  intro c
  rw [hasked c]
  exact ((hline c).filter _).trans (ho c)

/-- A client's message comes to the end of the client's line. -/
theorem InOrder.client (ho : s.InOrder v h) {c : SocketName} (hc : c ≠ v) (m : ClientMsg)
    (hf : Fresh h (.client c m)) (hstage : ∀ t, Tx.Stage t (tx v t s h)) :
    InOrder v { s with net := { s.net with
      inbox := Function.update s.net.inbox c (s.net.inbox c ++ [m.packet]) } }
        (h ++ requestedBy c m) := by
  cases m with
  | connect t | disconnect t =>
    refine ho.of_lines (fun o => by rw [askedBy_append]; simp [requestedBy, askedBy]) fun o => ?_
    simp only [line, served_append]
    rw [executeIds_put (executeId_none_of_ptype (by rintro ⟨⟩))]
    simp [requestedBy, served]
  | execute t r =>
    have hserved : served (h ++ requestedBy c (.execute t r)) = served h := by
      simp [requestedBy, served]
    intro o
    by_cases hoc : o = c
    · subst hoc
      -- The id is fresh, so nothing of the transaction is on the way.
      have hnew := requestsOf_of_fresh hf
      have hfresh : t ∉ line v s h o := by
        have hst := hstage t
        have hreqs : (tx v t s h).requests = [] := hnew
        intro hmem
        have hparts : (tx v t s h).handled ≠ [] ∨ (tx v t s h).delivered ≠ [] ∨
            (tx v t s h).asked o ≠ [] := by
          rcases List.mem_append.mp hmem with hmem | hmem
          · rcases List.mem_append.mp hmem with hmem | hmem
            · refine .inl (List.ne_nil_of_length_pos ?_)
              have hpos := List.count_pos_iff.mpr hmem
              exact lt_of_lt_of_le hpos (count_served_le h)
            · obtain ⟨p, hp, hid⟩ := List.mem_filterMap.mp hmem
              refine .inr (.inl (List.ne_nil_of_mem (a := p) ?_))
              exact List.mem_filter.mpr ⟨hp, by simp [hid]⟩
          · obtain ⟨p, hp, hid⟩ := List.mem_filterMap.mp hmem
            refine .inr (.inr (List.ne_nil_of_mem (a := p) ?_))
            exact List.mem_filter.mpr ⟨hp, by simp [hid]⟩
        generalize tx v t s h = x at *
        cases hst with
        | absent => simp at hparts
        | _ => cases hreqs
      have hasked : askedBy o (h ++ requestedBy o (.execute t r)) = askedBy o h ++ [t] := by
        rw [askedBy_append]
        simp [requestedBy, askedBy]
      have hline : line v { s with net := { s.net with
          inbox := Function.update s.net.inbox o (s.net.inbox o ++ [.execute t r]) } }
          (h ++ requestedBy o (.execute t r)) o = line v s h o ++ [t] := by
        simp only [line, hserved, Function.update_self, executeIds_append]
        simp [executeIds]
      have hold : (line v s h o).filter (· ∈ askedBy o h ++ [t]) =
          (line v s h o).filter (· ∈ askedBy o h) := by
        refine List.filter_congr fun x hx => ?_
        have hxt : x ≠ t := by
          rintro rfl
          exact hfresh hx
        simp [hxt]
      rw [ClientMsg.packet, hline, hasked, List.filter_append, hold]
      refine (ho o).append ?_
      simp
    · have hasked : askedBy o (h ++ requestedBy c (.execute t r)) = askedBy o h := by
        rw [askedBy_append]
        simp [requestedBy, askedBy, Ne.symm hoc]
      have hline : line v { s with net := { s.net with
          inbox := Function.update s.net.inbox c (s.net.inbox c ++ [.execute t r]) } }
          (h ++ requestedBy c (.execute t r)) o = line v s h o := by
        simp only [line, hserved, Function.update_of_ne hoc]
      rw [ClientMsg.packet, hline, hasked]
      exact ho o

/-- The broker puts a client's request at the end of the VM's mailbox, where the line of the client
goes on. It is none of the requests of the other clients. -/
theorem InOrder.forward (ho : s.InOrder v h) {c : SocketName} {r : Request} {rest : List Packet}
    {b : Broker} (hc : c ≠ v) (hq : s.net.inbox c = .execute t r :: rest)
    (hroom : (s.net.mailbox v).length < Mailbox.limit) (hstage : Tx.Stage t (tx v t s h)) :
    InOrder v { s with net := ((s.net.received c b rest).deliver v (.execute t r)).1 } h := by
  have hmail : ((s.net.received c b rest).deliver v (.execute t r)).1.mailbox v =
      s.net.mailbox v ++ [.execute t r] := by
    have hroom' : ((s.net.received c b rest).mailbox v).length < Mailbox.limit := hroom
    rw [mailbox_deliver hroom', Function.update_self]
    rfl
  have hinbox : ∀ o, ((s.net.received c b rest).deliver v (.execute t r)).1.inbox o =
      Function.update s.net.inbox c rest o := fun o => by rw [Net.deliver_inbox, Net.received]
  intro o
  by_cases hoc : o = c
  · subst hoc
    have hline : line v { s with net := ((s.net.received o b rest).deliver v (.execute t r)).1 } h o =
        line v s h o := by
      simp only [line, hmail, hinbox, Function.update_self, hq]
      simp [executeIds]
    rw [hline]
    exact ho o
  · have hother : t ∉ askedBy o h := by
      intro hmem
      obtain ⟨q, hq'⟩ := mem_askedBy_iff.mp hmem
      have hask : (tx v t s h).asked c = .execute t r :: executesOf t rest := by
        simp only [tx, hq]
        exact executesOf_cons executeId_execute
      obtain ⟨q', -, -, hx⟩ := hstage.of_asked hask
      have hreqs : requestsOf t h = [(c, q')] := congrArg Tx.requests hx
      rw [hreqs, List.mem_singleton] at hq'
      exact hoc (Prod.mk.inj hq').1
    have hline : (line v { s with
        net := ((s.net.received c b rest).deliver v (.execute t r)).1 } h o).filter
          (· ∈ askedBy o h) = (line v s h o).filter (· ∈ askedBy o h) := by
      simp only [line, hmail, hinbox, Function.update_of_ne hoc, executeIds_append,
        List.filter_append]
      simp [executeIds, hother]
    rw [hline]
    exact ho o

/-- Every step keeps the requests in order. -/
theorem InOrder.moves (ho : s.InOrder v h) (ht : s.Traffic v) {a : SysAct σ ω}
    (hm : Moves v uuid s a es s') (hf : Fresh h a) (hloss : s.Lossless v a)
    (hstage : ∀ t, Tx.Stage t (tx v t s h)) : s'.InOrder v (h ++ es) := by
  have hasked : ∀ c, askedBy c (h ++ ([] : List (SysEvent σ ω))) = askedBy c h := by simp
  cases hm with
  | idle =>
    rw [List.append_nil]
    exact ho
  | accept hc =>
    rw [List.append_nil]
    exact ho
  | client m hc hatt => exact ho.client hc m hf hstage
  | @take c pkt rest hc hq =>
    refine ho.of_lines (fun o => by simp [askedBy]) fun o => ?_
    simp only [line, served_append, Function.update_of_ne (Ne.symm hc)]
    simp [served]
  | @reply c msg reply rest b hq hne _ _ _ _ hfor hpt =>
    refine ho.of_lines hasked fun o => ?_
    have hid : reply.executeId = none := executeId_none_of_ptype (by rw [hpt]; rintro ⟨⟩)
    simp only [line, List.append_nil, executeIds_deliver hid, Net.deliver_inbox, Net.received]
    exact (List.Sublist.refl _).append (executeIds_rest hq o)
  | @refuse c t r rest hc hq hsub hsends =>
    refine ho.of_lines hasked fun o => ?_
    have hid : (Packet.respondExecuteError t 0
        "There is no channel can handle this request").executeId = none :=
      executeId_none_of_ptype (by rintro ⟨⟩)
    simp only [line, List.append_nil, executeIds_deliver hid, Net.deliver_inbox, Net.received]
    exact (List.Sublist.refl _).append (executeIds_rest hq o)
  | @forward c t r rest hc hq hsub hsends =>
    rw [List.append_nil]
    exact ho.forward hc hq (hloss _ hsends (.inl rfl)) (hstage t)
  | @relay c t i out rest b hc hq _ _ _ hsends =>
    refine ho.of_lines hasked fun o => ?_
    have hid : (out.packet t i).executeId = none :=
      executeId_none_of_ptype (by cases out <;> rintro ⟨⟩)
    simp only [line, List.append_nil, executeIds_deliver hid, Net.deliver_inbox, Net.received]
    exact (List.Sublist.refl _).append (executeIds_rest hq o)
  | @vanish t i out rest hq _ =>
    refine ho.of_lines hasked fun o => ?_
    simp only [line, List.append_nil, Net.received]
    exact (List.Sublist.refl _).append (executeIds_rest hq o)
  | vm hout hloop hno =>
    refine ho.of_lines (fun o => by rw [askedBy_append, askedBy_produced, List.append_nil])
      fun o => ?_
    simp only [line, served_append, served_produced, List.append_nil]
    exact List.Sublist.refl _
  | @vmRecv pkt rest pkts loop hout hq hloop =>
    refine ho.of_lines (fun o => ?_) fun o => ?_
    · rw [askedBy_append]
      have hnone : askedBy o (.handled pkt s.loop.vm loop.vm :: pkts.map .produced) = [] := by
        simp [askedBy]
      rw [hnone, List.append_nil]
    · -- The first packet of the mailbox goes to the end of what is handled.
      have hfor : pkt.ForVm := ht.forVm pkt (by rw [hq]; exact .head _)
      have hhandled : (served (.handled pkt s.loop.vm loop.vm :: pkts.map .produced)).map Prod.fst =
          executeIds [pkt] := by
        have hrest := served_produced (σ := σ) (ω := ω) pkts
        unfold served at hrest ⊢
        rw [List.filterMap_cons, hrest]
        cases hfor with
        | execute t r => simp [executeIds]
        | respond t =>
          have hid : (Packet.respond t).executeId = none := executeId_none_of_ptype (by rintro ⟨⟩)
          simp [executeIds, hid]
        | respondError t reason =>
          have hid : (Packet.respondError t reason).executeId = none :=
            executeId_none_of_ptype (by rintro ⟨⟩)
          simp [executeIds, hid]
      have hsplit : executeIds (s.net.mailbox v) = executeIds [pkt] ++ executeIds rest := by
        rw [hq, ← executeIds_append]
        rfl
      simp only [line, served_append, List.map_append, hhandled, Function.update_self, hsplit,
        List.append_assoc]
      exact List.Sublist.refl _
  | @vmSend pkt rest hout =>
    refine ho.of_lines hasked fun o => ?_
    have hid : pkt.executeId = none := by
      have hof : pkt.OfVm := ht.ofVm pkt (by rw [hout]; exact List.mem_append_right _ (.head _))
      cases hp : pkt.executeId with
      | none => rfl
      | some t => exact absurd hp hof.executeId
    simp only [line, List.append_nil, executeIds_put hid]
    exact List.Sublist.refl _
  | vmDrop hout hsends hfull =>
    rw [List.append_nil]
    exact ho
  | vmAbort f hout hsends hfull hact =>
    rw [List.append_nil]
    exact ho

/-! ## Runs -/

variable {env : ω} {r : Recorded (Sys σ ω) (SysEvent σ ω)}

theorem inOrder_of_reach
    (hr : ReachVia (recordedStep v uuid) (Kept v) (recordedStart v env) r) :
    r.state.InOrder v r.history := by
  refine hr.invariant (P := fun r => r.state.InOrder v r.history) (fun c => ?_) ?_
  · exact List.nil_sublist _
  · rintro ⟨s, h⟩ a ⟨s', h'⟩ hreach ho ⟨⟨hfresh, -⟩, hloss⟩ hstep
    obtain ⟨hstep, rfl⟩ := record_eq_some_iff.mp hstep
    have ht : s.Traffic v := traffic_of_reach (hreach.state fun _ _ _ => trivial)
    exact ho.moves ht (moves_of_step ht hstep) hfresh hloss (stage_of_reach hreach)

/-- The VM handles a transaction at most once. -/
theorem nodup_served (hr : ReachVia (recordedStep v uuid) (Kept v) (recordedStart v env) r) :
    ((served r.history).map Prod.fst).Nodup := by
  refine List.nodup_iff_count_le_one.mpr fun t => (count_served_le r.history).trans ?_
  have hstage := stage_of_reach hr t
  show (tx v t r.state r.history).handled.length ≤ 1
  generalize tx v t r.state r.history = x at *
  cases hstage <;> simp

/-- A client requests a transaction at most once. -/
theorem nodup_askedBy (hr : ReachVia (recordedStep v uuid) (Kept v) (recordedStart v env) r)
    (c : SocketName) : (askedBy c r.history).Nodup := by
  refine List.nodup_iff_count_le_one.mpr fun t => (count_askedBy_le c r.history).trans ?_
  have hstage := stage_of_reach hr t
  show (tx v t r.state r.history).requests.length ≤ 1
  generalize tx v t r.state r.history = x at *
  cases hstage <;> simp

/-- Of two requests of one client, the VM handles the earlier one first. -/
theorem served_in_order (hr : ReachVia (recordedStep v uuid) (Kept v) (recordedStart v env) r)
    {c : SocketName} {t t' : TxId} (hasked : (askedBy c r.history).Precedes t t')
    (ht : t ∈ (served r.history).map Prod.fst) (ht' : t' ∈ (served r.history).map Prod.fst) :
    ((served r.history).map Prod.fst).Precedes t t' := by
  have hsub : (((served r.history).map Prod.fst).filter (· ∈ askedBy c r.history)).Sublist
      (askedBy c r.history) := by
    refine List.Sublist.trans (List.Sublist.filter _ ?_) (inOrder_of_reach hr c)
    unfold line
    rw [List.append_assoc]
    exact List.sublist_append_left _ _
  obtain ⟨hmem, hmem'⟩ := hasked.mem
  have hfilter := hasked.of_sublist (nodup_askedBy hr c) hsub
    (List.mem_filter.mpr ⟨ht, by simpa using hmem⟩) (List.mem_filter.mpr ⟨ht', by simpa using hmem'⟩)
  exact hfilter.mono List.filter_sublist

end Ailoy.Sys
