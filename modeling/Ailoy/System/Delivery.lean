import Ailoy.System.Traffic
import Ailoy.System.Transaction

/-!
# The transactions of a run

`tx` is the part of the system that belongs to one transaction. `Moves.tx` says that a step of the
system is a step of each transaction, or leaves it as it is, when a client uses a fresh id, the VM
goes on running, and a send of an `execute` or `respond_execute` packet does not find its mailbox
full. Each case of a step is a lemma: what it does to the queues, the table, and the call is one of
the cases of `Tx.Step` if the packet belongs to the transaction, and nothing otherwise.
-/

namespace Ailoy

open Transition

/-- The `execute` packets of `t` in a queue. -/
def executesOf (t : TxId) (q : List Packet) : List Packet := q.filter fun p => p.executeId = some t

/-- The responses of `t` in a queue. -/
def responsesOf (t : TxId) (q : List Packet) : List Packet := q.filter fun p => p.Responds t

section Queues

variable {t t' : TxId} {p : Packet} {q q' : List Packet} {r : Request}

@[simp] theorem executeId_execute : (Packet.execute t r).executeId = some t := rfl

theorem executesOf_append : executesOf t (q ++ q') = executesOf t q ++ executesOf t q' :=
  List.filter_append ..

theorem responsesOf_append : responsesOf t (q ++ q') = responsesOf t q ++ responsesOf t q' :=
  List.filter_append ..

theorem executesOf_cons (h : p.executeId = some t) :
    executesOf t (p :: q) = p :: executesOf t q := by
  simp [executesOf, h]

theorem executesOf_cons_of_ne (h : p.executeId ≠ some t) :
    executesOf t (p :: q) = executesOf t q := by
  simp [executesOf, h]

theorem responsesOf_cons (h : p.Responds t) : responsesOf t (p :: q) = p :: responsesOf t q := by
  simp [responsesOf, h]

theorem responsesOf_cons_of_not (h : ¬ p.Responds t) :
    responsesOf t (p :: q) = responsesOf t q := by
  simp [responsesOf, h]

/-- A packet of another type is no `execute`. -/
theorem executeId_of_ptype (h : p.ptype ≠ .execute) : p.executeId ≠ some t := by
  simp [Packet.executeId, h]

/-- A packet of another type is no response. -/
theorem not_responds_of_ptype (h : p.ptype ≠ .respondExecute) : ¬ p.Responds t := fun hr => h hr.1

/-- The packet of an output belongs to one transaction. -/
theorem responds_packet_iff {i : ℕ} {out : Output} : (out.packet t' i).Responds t ↔ t' = t := by
  constructor
  · rintro ⟨-, htx⟩
    have htx' : (out.packet t' i).getTxId = .ok t' := (Output.responds_packet t' i out).2
    exact Except.ok.inj (htx'.symm.trans htx)
  · rintro rfl
    exact Output.responds_packet t' i out

theorem Packet.OfVm.executeId (h : p.OfVm) : p.executeId ≠ some t := by
  refine executeId_of_ptype fun hp => ?_
  cases h with
  | output t i out => cases out <;> cases hp
  | _ => cases hp

theorem Packet.ForVm.not_responds (h : p.ForVm) : ¬ p.Responds t := by
  refine not_responds_of_ptype fun hp => ?_
  cases h <;> cases hp

end Queues

/-- A queue that is replaced, among the packets that are kept. -/
theorem filter_update (keep : Packet → Bool) (f : SocketName → List Packet) (c : SocketName)
    (l : List Packet) : (fun o => (Function.update f c l o).filter keep) =
      Function.update (fun o => (f o).filter keep) c (l.filter keep) := by
  funext o
  by_cases ho : o = c
  · subst ho
    rw [Function.update_self, Function.update_self]
  · rw [Function.update_of_ne ho, Function.update_of_ne ho]

theorem executesOf_update (t : TxId) (f : SocketName → List Packet) (c : SocketName)
    (l : List Packet) : (fun o => executesOf t (Function.update f c l o)) =
      Function.update (fun o => executesOf t (f o)) c (executesOf t l) := filter_update ..

theorem responsesOf_update (t : TxId) (f : SocketName → List Packet) (c : SocketName)
    (l : List Packet) : (fun o => responsesOf t (Function.update f c l o)) =
      Function.update (fun o => responsesOf t (f o)) c (responsesOf t l) := filter_update ..

/-- A queue that stays the same, among the packets that are kept. -/
theorem update_same {f : SocketName → List Packet} {c : SocketName} {l : List Packet}
    (h : l = f c) : Function.update f c l = f := by
  rw [h, Function.update_eq_self]

namespace Sys

variable {σ ω : Type}

/-- The packets that the client of `c` has taken from its mailbox. -/
def tookBy (c : SocketName) (h : List (SysEvent σ ω)) : List Packet :=
  h.filterMap fun
    | .took c' pkt => if c' = c then some pkt else none
    | _ => none

/-- The requests of `t`, with their clients. -/
def requestsOf (t : TxId) (h : List (SysEvent σ ω)) : List (SocketName × Request) :=
  h.filterMap fun
    | .requested c t' r => if t' = t then some (c, r) else none
    | _ => none

/-- The `execute` packets of `t` that the VM has handled, with its state before. -/
def handledOf (t : TxId) (h : List (SysEvent σ ω)) : List (Packet × Vm σ ω) :=
  h.filterMap fun
    | .handled pkt before _ => if pkt.executeId = some t then some (pkt, before) else none
    | _ => none

/-- The call of `t`, if the VM is in its loop. -/
def callOf (t : TxId) (l : Loop σ ω) : Option (Call σ) :=
  match l.activity with
  | .calling c => if c.txId = t then some c else none
  | _ => none

/-- The part of the system that belongs to the transaction `t`. -/
def tx (v : SocketName) (t : TxId) (s : Sys σ ω) (h : List (SysEvent σ ω)) : Tx σ ω where
  requests := requestsOf t h
  asked := fun c => executesOf t (s.net.inbox c)
  delivered := executesOf t (s.net.mailbox v)
  handled := handledOf t h
  call := callOf t s.loop
  pending := responsesOf t (s.net.inbox v ++ s.out)
  requester := s.net.broker.transactions.lookup t
  handed := fun c => responsesOf t (tookBy c h ++ s.net.mailbox c)

/-- A transaction takes a step, or stays as it is. -/
def Evolves (t : TxId) (x y : Tx σ ω) : Prop := y = x ∨ Tx.Step t x y

variable {v : SocketName} {uuid : ℕ → TxId} {s s' : Sys σ ω} {h : List (SysEvent σ ω)} {t : TxId}

section Events

variable (c : SocketName) (es : List (SysEvent σ ω))

theorem tookBy_append : tookBy c (h ++ es) = tookBy c h ++ tookBy c es := List.filterMap_append

theorem requestsOf_append : requestsOf t (h ++ es) = requestsOf t h ++ requestsOf t es :=
  List.filterMap_append

theorem handledOf_append : handledOf t (h ++ es) = handledOf t h ++ handledOf t es :=
  List.filterMap_append

@[simp] theorem tookBy_produced (pkts : List Packet) :
    tookBy c (pkts.map (.produced : Packet → SysEvent σ ω)) = [] := by
  simp [tookBy, List.filterMap_map]

@[simp] theorem requestsOf_produced (pkts : List Packet) :
    requestsOf t (pkts.map (.produced : Packet → SysEvent σ ω)) = [] := by
  simp [requestsOf, List.filterMap_map]

@[simp] theorem handledOf_produced (pkts : List Packet) :
    handledOf t (pkts.map (.produced : Packet → SysEvent σ ω)) = [] := by
  simp [handledOf, List.filterMap_map]

end Events

/-! ## The steps of the clients and the broker -/

/-- The responses of a client, when a packet has been put in a mailbox. -/
theorem handed_put {c : SocketName} {pkt : Packet} (hr : pkt.Responds t) :
    (fun o => responsesOf t (tookBy o h ++
        Function.update s.net.mailbox c (s.net.mailbox c ++ [pkt]) o)) =
      Function.update (fun o => responsesOf t (tookBy o h ++ s.net.mailbox o)) c
        (responsesOf t (tookBy c h ++ s.net.mailbox c) ++ [pkt]) := by
  funext o
  by_cases ho : o = c
  · subst ho
    simp only [Function.update_self, responsesOf_append]
    rw [responsesOf_cons hr, List.append_assoc]
    rfl
  · rw [Function.update_of_ne ho, Function.update_of_ne ho]

/-- The mailboxes after a send of the broker that finds room. -/
theorem mailbox_deliver {n : Net} {c : SocketName} {pkt : Packet}
    (hroom : (n.mailbox c).length < Mailbox.limit) :
    (n.deliver c pkt).1.mailbox = Function.update n.mailbox c (n.mailbox c ++ [pkt]) := by
  rw [Net.deliver_mailbox, if_pos hroom]

/-- A packet that does not count is put in a mailbox, or is not. -/
theorem filter_deliver {keep : Packet → Bool} {n : Net} {c : SocketName} {pkt : Packet}
    (hpkt : keep pkt = false) (o : SocketName) :
    ((n.deliver c pkt).1.mailbox o).filter keep = (n.mailbox o).filter keep := by
  rw [Net.deliver_mailbox]
  split_ifs
  · by_cases ho : o = c
    · subst ho
      simp [hpkt]
    · rw [Function.update_of_ne ho]
  · rfl

/-- The broker handles a message that does not belong to the transaction, and sends a packet that
does not either. -/
theorem tx_deliver_other {c dest : SocketName} {msg pkt : Packet} {rest : List Packet} {b : Broker}
    (hq : s.net.inbox c = msg :: rest) (hmsg : msg.executeId ≠ some t) (hresp : ¬ msg.Responds t)
    (hpkt : pkt.executeId ≠ some t) (hresp' : ¬ pkt.Responds t)
    (hb : b.transactions.lookup t = s.net.broker.transactions.lookup t) :
    tx v t { s with net := ((s.net.received c b rest).deliver dest pkt).1 } (h ++ []) =
      tx v t s h := by
  have hasked : ∀ o, executesOf t (Function.update s.net.inbox c rest o) =
      executesOf t (s.net.inbox o) := by
    refine congrFun ?_
    rw [executesOf_update, update_same]
    rw [hq, executesOf_cons_of_ne hmsg]
  have hinbox : responsesOf t (Function.update s.net.inbox c rest v) =
      responsesOf t (s.net.inbox v) := by
    refine congrFun (f := fun o => responsesOf t (Function.update s.net.inbox c rest o))
      (g := fun o => responsesOf t (s.net.inbox o)) ?_ v
    rw [responsesOf_update, update_same]
    rw [hq, responsesOf_cons_of_not hresp]
  have hmail : ∀ o, responsesOf t (((s.net.received c b rest).deliver dest pkt).1.mailbox o) =
      responsesOf t (s.net.mailbox o) := filter_deliver (by simpa using hresp')
  have hdel : executesOf t (((s.net.received c b rest).deliver dest pkt).1.mailbox v) =
      executesOf t (s.net.mailbox v) := filter_deliver (by simpa using hpkt) v
  ext1
  · simp only [tx, List.append_nil]
  · simp only [tx, Net.deliver_inbox, Net.received]
    exact funext hasked
  · exact hdel
  · simp only [tx, List.append_nil]
  · rfl
  · simp only [tx, Net.deliver_inbox, Net.received, responsesOf_append]
    rw [hinbox]
  · simp only [tx, Net.deliver_broker, Net.received]
    exact hb
  · simp only [tx, List.append_nil, responsesOf_append]
    exact funext fun o => by rw [hmail o]

/-- With a fresh id, the transaction has not been requested. -/
theorem requestsOf_of_fresh {c : SocketName} {r : Request}
    (hf : Fresh h (.client c (.execute t r))) : requestsOf t h = [] := by
  have hall := List.all_eq_true.mp hf
  unfold requestsOf
  rw [List.filterMap_eq_nil_iff]
  intro e he
  have hne := hall e he
  cases e with
  | requested c' t' r' =>
    have hne' : t' ≠ t := by simpa using hne
    simp [hne']
  | _ => rfl

/-- A client sends a packet that does not belong to the transaction. -/
theorem tx_send_other {c : SocketName} {pkt : Packet} {es : List (SysEvent σ ω)} (hc : c ≠ v)
    (hpkt : pkt.executeId ≠ some t) (hreq : requestsOf t es = []) (hhan : handledOf t es = [])
    (htook : ∀ o, tookBy o es = []) :
    tx v t { s with net := { s.net with
      inbox := Function.update s.net.inbox c (s.net.inbox c ++ [pkt]) } } (h ++ es) =
      tx v t s h := by
  have hasked : (fun o => executesOf t (Function.update s.net.inbox c (s.net.inbox c ++ [pkt]) o)) =
      fun o => executesOf t (s.net.inbox o) := by
    rw [executesOf_update, update_same]
    rw [executesOf_append, executesOf_cons_of_ne hpkt]
    exact List.append_nil _
  ext1
  · simp only [tx, requestsOf_append, hreq, List.append_nil]
  · exact hasked
  · rfl
  · simp only [tx, handledOf_append, hhan, List.append_nil]
  · rfl
  · simp only [tx, Function.update_of_ne (Ne.symm hc)]
  · rfl
  · simp only [tx, tookBy_append, htook, List.append_nil]

/-- A client's message starts its transaction, or changes nothing. -/
theorem evolves_client {c : SocketName} (hc : c ≠ v) (m : ClientMsg)
    (hf : Fresh h (.client c m)) :
    Evolves t (tx v t s h) (tx v t { s with net := { s.net with
      inbox := Function.update s.net.inbox c (s.net.inbox c ++ [m.packet]) } }
        (h ++ requestedBy c m)) := by
  cases m with
  | connect t' | disconnect t' =>
    exact .inl (tx_send_other hc (executeId_of_ptype (by rintro ⟨⟩)) rfl rfl fun _ => rfl)
  | execute t' r =>
    by_cases ht : t' = t
    · subst ht
      refine .inr ?_
      have hnew := requestsOf_of_fresh hf
      have heq : tx v t' { s with net := { s.net with
          inbox := Function.update s.net.inbox c (s.net.inbox c ++ [.execute t' r]) } }
          (h ++ requestedBy c (.execute t' r)) =
          { tx v t' s h with
            requests := (tx v t' s h).requests ++ [(c, r)]
            asked := Function.update (tx v t' s h).asked c
              ((tx v t' s h).asked c ++ [.execute t' r]) } := by
        ext1
        · simp only [tx, requestsOf_append]
          simp [requestedBy, requestsOf]
        · simp only [tx]
          rw [executesOf_update, executesOf_append, executesOf_cons executeId_execute]
          rfl
        · rfl
        · simp only [tx, handledOf_append]
          exact List.append_nil _
        · rfl
        · simp only [tx, Function.update_of_ne (Ne.symm hc)]
        · rfl
        · simp only [tx, tookBy_append]
          exact funext fun o => congrArg (responsesOf t' <| · ++ s.net.mailbox o)
            (List.append_nil (tookBy o h))
      rw [ClientMsg.packet, heq]
      exact .request c r hnew
    · have hne : (Packet.execute t' r).executeId ≠ some t := by simpa using ht
      refine .inl (tx_send_other hc hne ?_ rfl fun _ => rfl)
      simp [requestedBy, requestsOf, ht]

/-- A client that takes a packet has been handed it before. -/
theorem tx_take {c : SocketName} {pkt : Packet} {rest : List Packet} (hc : c ≠ v)
    (hq : s.net.mailbox c = pkt :: rest) :
    tx v t { s with net := { s.net with mailbox := Function.update s.net.mailbox c rest } }
      (h ++ [.took c pkt]) = tx v t s h := by
  ext1
  · simp only [tx, requestsOf_append]
    exact List.append_nil _
  · rfl
  · simp only [tx, Function.update_of_ne (Ne.symm hc)]
  · simp only [tx, handledOf_append]
    exact List.append_nil _
  · rfl
  · rfl
  · rfl
  · simp only [tx, tookBy_append]
    funext o
    by_cases ho : o = c
    · subst ho
      simp [tookBy, hq]
    · simp [tookBy, Function.update_of_ne ho, Ne.symm ho]

/-- The next request of a client is the next one of its transaction. -/
theorem asked_cons {c : SocketName} {r : Request} {rest : List Packet}
    (hq : s.net.inbox c = .execute t r :: rest) :
    (tx v t s h).asked c = .execute t r :: executesOf t rest := by
  simp only [tx, hq]
  exact executesOf_cons executeId_execute

/-- The broker refuses a request. -/
theorem evolves_refuse {c : SocketName} {t' : TxId} {r : Request} {rest : List Packet} (hc : c ≠ v)
    (hq : s.net.inbox c = .execute t' r :: rest)
    (hroom : (s.net.mailbox c).length < Mailbox.limit) :
    Evolves t (tx v t s h) (tx v t { s with
      net := ((s.net.received c s.net.broker rest).deliver c (refusal t')).1 } (h ++ [])) := by
  by_cases ht : t' = t
  · subst ht
    refine .inr ?_
    have hmail : ((s.net.received c s.net.broker rest).deliver c (refusal t')).1.mailbox =
        Function.update s.net.mailbox c (s.net.mailbox c ++ [refusal t']) :=
      mailbox_deliver hroom
    have hresp : (refusal t').Responds t' := Packet.responds_respondExecuteError t' 0 _
    have heq : tx v t' { s with
        net := ((s.net.received c s.net.broker rest).deliver c (refusal t')).1 } (h ++ []) =
        { tx v t' s h with
          asked := Function.update (tx v t' s h).asked c (executesOf t' rest)
          handed := Function.update (tx v t' s h).handed c
            ((tx v t' s h).handed c ++ [refusal t']) } := by
      rw [List.append_nil]
      ext1
      · rfl
      · simp only [tx, Net.deliver_inbox, Net.received]
        exact executesOf_update ..
      · simp only [tx, hmail, Function.update_of_ne (Ne.symm hc)]
      · rfl
      · rfl
      · simp only [tx, Net.deliver_inbox, Net.received, Function.update_of_ne (Ne.symm hc)]
      · simp only [tx, Net.deliver_broker, Net.received]
      · simp only [tx, hmail]
        exact handed_put hresp
    rw [heq]
    exact .refuse (asked_cons hq)
  · have hne : (Packet.execute t' r).executeId ≠ some t := by simpa using ht
    refine .inl (tx_deliver_other hq hne (not_responds_of_ptype (by rintro ⟨⟩))
      (executeId_of_ptype (by rintro ⟨⟩)) ?_ rfl)
    rintro ⟨-, htx⟩
    exact ht (Except.ok.inj htx)

/-- The broker forwards a request to the VM. -/
theorem evolves_forward {c : SocketName} {t' : TxId} {r : Request} {rest : List Packet} (hc : c ≠ v)
    (hq : s.net.inbox c = .execute t' r :: rest)
    (hroom : (s.net.mailbox v).length < Mailbox.limit) :
    Evolves t (tx v t s h) (tx v t { s with
      net := ((s.net.received c
        { s.net.broker with transactions := s.net.broker.transactions.insert t' c }
        rest).deliver v (.execute t' r)).1 } (h ++ [])) := by
  by_cases ht : t' = t
  · subst ht
    refine .inr ?_
    let n := s.net.received c
      { s.net.broker with transactions := s.net.broker.transactions.insert t' c } rest
    have hmail : (n.deliver v (.execute t' r)).1.mailbox =
        Function.update s.net.mailbox v (s.net.mailbox v ++ [.execute t' r]) :=
      mailbox_deliver hroom
    have hhanded : ∀ o, responsesOf t' ((n.deliver v (.execute t' r)).1.mailbox o) =
        responsesOf t' (s.net.mailbox o) := filter_deliver rfl
    have heq : tx v t' { s with net := (n.deliver v (.execute t' r)).1 } (h ++ []) =
        { tx v t' s h with
          asked := Function.update (tx v t' s h).asked c (executesOf t' rest)
          delivered := (tx v t' s h).delivered ++ [.execute t' r]
          requester := some c } := by
      rw [List.append_nil]
      ext1
      · rfl
      · simp only [tx, Net.deliver_inbox]
        exact executesOf_update ..
      · simp only [tx, hmail, Function.update_self]
        rw [executesOf_append, executesOf_cons executeId_execute]
        rfl
      · rfl
      · rfl
      · simp only [tx, Net.deliver_inbox]
        simp only [n, Net.received, Function.update_of_ne (Ne.symm hc)]
      · simp only [tx, Net.deliver_broker]
        exact AList.lookup_insert _
      · simp only [tx, responsesOf_append]
        exact funext fun o => by rw [hhanded o]
    rw [heq]
    exact .forward (asked_cons hq)
  · have hne : (Packet.execute t' r).executeId ≠ some t := by simpa using ht
    have hlookup := UnorderedMap.lookup_insert_eq s.net.broker.transactions t' t c
    rw [if_neg (Ne.symm ht)] at hlookup
    have hresp : ¬ (Packet.execute t' r).Responds t := not_responds_of_ptype (by rintro ⟨⟩)
    exact .inl (tx_deliver_other hq hne hresp hne hresp hlookup)

/-- The next packet of the VM that the broker handles is the next response of its transaction. -/
theorem pending_cons {i : ℕ} {out : Output} {rest : List Packet}
    (hq : s.net.inbox v = out.packet t i :: rest) :
    (tx v t s h).pending = out.packet t i :: responsesOf t (rest ++ s.out) := by
  simp only [tx, hq, List.cons_append]
  exact responsesOf_cons (Output.responds_packet t i out)

/-- The inboxes hold the same requests when the broker takes a packet of the VM. -/
theorem asked_of_vm {msg : Packet} {rest : List Packet} (hq : s.net.inbox v = msg :: rest)
    (hmsg : msg.executeId ≠ some t) :
    (fun o => executesOf t (Function.update s.net.inbox v rest o)) =
      fun o => executesOf t (s.net.inbox o) := by
  rw [executesOf_update, update_same]
  rw [hq, executesOf_cons_of_ne hmsg]

/-- The broker relays a response to the requester. -/
theorem evolves_relay {c : SocketName} {t' : TxId} {i : ℕ} {out : Output} {rest : List Packet}
    {b : Broker} (hc : c ≠ v) (hq : s.net.inbox v = out.packet t' i :: rest)
    (hopen : s.net.broker.transactions.lookup t' = some c)
    (hb : ∀ t, b.transactions.lookup t = if t = t' ∧ out.final = true then none
      else s.net.broker.transactions.lookup t)
    (hroom : (s.net.mailbox c).length < Mailbox.limit) :
    Evolves t (tx v t s h) (tx v t { s with
      net := ((s.net.received v b rest).deliver c (out.packet t' i)).1 } (h ++ [])) := by
  have hexec : (out.packet t' i).executeId ≠ some t := (Packet.OfVm.output t' i out).executeId
  by_cases ht : t' = t
  · subst ht
    refine .inr ?_
    have hmail : ((s.net.received v b rest).deliver c (out.packet t' i)).1.mailbox =
        Function.update s.net.mailbox c (s.net.mailbox c ++ [out.packet t' i]) :=
      mailbox_deliver hroom
    have heq : tx v t' { s with
        net := ((s.net.received v b rest).deliver c (out.packet t' i)).1 } (h ++ []) =
        { tx v t' s h with
          pending := responsesOf t' (rest ++ s.out)
          requester := if out.final = true then none else (tx v t' s h).requester
          handed := Function.update (tx v t' s h).handed c
            ((tx v t' s h).handed c ++ [out.packet t' i]) } := by
      rw [List.append_nil]
      ext1
      · rfl
      · simp only [tx, Net.deliver_inbox, Net.received]
        exact asked_of_vm hq hexec
      · simp only [tx, hmail, Function.update_of_ne (Ne.symm hc)]
      · rfl
      · rfl
      · simp only [tx, Net.deliver_inbox, Net.received, Function.update_self]
      · simp only [tx, Net.deliver_broker, Net.received, hb, true_and]
      · simp only [tx, hmail]
        exact handed_put (Output.responds_packet t' i out)
    rw [heq]
    exact .relay (pending_cons hq) hopen
  · have hne : ¬ (out.packet t' i).Responds t := fun hr => ht (responds_packet_iff.mp hr)
    refine .inl (tx_deliver_other hq hexec hne hexec hne ?_)
    rw [hb, if_neg fun heq => ht heq.1.symm]

/-- The broker drops a response whose transaction has vanished. -/
theorem evolves_vanish {t' : TxId} {i : ℕ} {out : Output} {rest : List Packet}
    (hq : s.net.inbox v = out.packet t' i :: rest)
    (hopen : s.net.broker.transactions.lookup t' = none) :
    Evolves t (tx v t s h)
      (tx v t { s with net := s.net.received v s.net.broker rest } (h ++ [])) := by
  have hexec : (out.packet t' i).executeId ≠ some t := (Packet.OfVm.output t' i out).executeId
  have heq : tx v t { s with net := s.net.received v s.net.broker rest } (h ++ []) =
      { tx v t s h with pending := responsesOf t (rest ++ s.out) } := by
    rw [List.append_nil]
    ext1
    · rfl
    · simp only [tx, Net.received]
      exact asked_of_vm hq hexec
    · rfl
    · rfl
    · rfl
    · simp only [tx, Net.received, Function.update_self]
    · rfl
    · rfl
  rw [heq]
  by_cases ht : t' = t
  · subst ht
    exact .inr (.vanish (pending_cons hq) hopen)
  · have hne : ¬ (out.packet t' i).Responds t := fun hr => ht (responds_packet_iff.mp hr)
    refine .inl ?_
    ext1
    · rfl
    · rfl
    · rfl
    · rfl
    · rfl
    · simp only [tx, hq, List.cons_append]
      exact (responsesOf_cons_of_not hne).symm
    · rfl
    · rfl

/-! ## The steps of the VM -/

/-- Packets that are no responses of the transaction. -/
theorem responsesOf_eq_nil {q : List Packet} (hq : ∀ p ∈ q, ¬ p.Responds t) :
    responsesOf t q = [] := by
  unfold responsesOf
  rw [List.filter_eq_nil_iff]
  exact fun p hp => by simpa using hq p hp

/-- The announcements in front of an answer are no responses. -/
theorem responsesOf_announcements {vm : Vm σ ω} {pkt : TxId → Instruction → Packet}
    {is : List Instruction} (hpkt : ∀ id i, (pkt id i).ptype ≠ .respondExecute)
    (q : List Packet) :
    responsesOf t ((Vm.sendEach uuid vm pkt is).2 ++ q) = responsesOf t q := by
  rw [responsesOf_append, responsesOf_eq_nil, List.nil_append]
  intro p hp
  obtain ⟨id, i, -, rfl⟩ := Vm.mem_sendEach hp
  exact not_responds_of_ptype (hpkt id i)

/-- The packets of one output, for the transaction it belongs to. -/
theorem responsesOf_packet {t' : TxId} {i : ℕ} {out : Output} :
    responsesOf t [out.packet t' i] = if t' = t then [out.packet t' i] else [] := by
  split_ifs with ht
  · exact responsesOf_cons (responds_packet_iff.mpr ht)
  · exact responsesOf_cons_of_not fun hr => ht (responds_packet_iff.mp hr)

/-- The VM goes on without a packet. -/
theorem tx_vm {loop : Loop σ ω} {pkts : List Packet} (hout : s.out = []) :
    tx v t { s with loop, out := pkts } (h ++ pkts.map .produced) =
      { tx v t s h with
        call := callOf t loop
        pending := (tx v t s h).pending ++ responsesOf t pkts } := by
  ext1
  · simp only [tx, requestsOf_append, requestsOf_produced, List.append_nil]
  · rfl
  · rfl
  · simp only [tx, handledOf_append, handledOf_produced, List.append_nil]
  · rfl
  · simp only [tx, hout, List.append_nil, responsesOf_append]
  · rfl
  · simp only [tx, tookBy_append, tookBy_produced, List.append_nil]

/-- The VM takes a packet from its mailbox. -/
theorem tx_vmRecv {pkt : Packet} {rest pkts : List Packet} {loop : Loop σ ω} (hout : s.out = [])
    (hq : s.net.mailbox v = pkt :: rest) (hfor : pkt.ForVm) :
    tx v t ⟨{ s.net with mailbox := Function.update s.net.mailbox v rest }, loop, pkts⟩
        (h ++ .handled pkt s.loop.vm loop.vm :: pkts.map .produced) =
      { tx v t s h with
        delivered := executesOf t rest
        handled := (tx v t s h).handled ++
          if pkt.executeId = some t then [(pkt, s.loop.vm)] else []
        call := callOf t loop
        pending := (tx v t s h).pending ++ responsesOf t pkts } := by
  have hmail : ∀ o, responsesOf t (Function.update s.net.mailbox v rest o) =
      responsesOf t (s.net.mailbox o) := by
    refine congrFun ?_
    rw [responsesOf_update, update_same]
    rw [hq, responsesOf_cons_of_not hfor.not_responds]
  ext1
  · simp only [tx, requestsOf_append]
    exact congrArg (requestsOf t h ++ ·) (requestsOf_produced pkts) |>.trans (List.append_nil _)
  · rfl
  · simp only [tx, Function.update_self]
  · simp only [tx, handledOf_append]
    refine congrArg (handledOf t h ++ ·) ?_
    have hcons : handledOf t ([.handled pkt s.loop.vm loop.vm] ++
        pkts.map (.produced : Packet → SysEvent σ ω)) =
        handledOf t [.handled pkt s.loop.vm loop.vm] := by
      rw [handledOf_append, handledOf_produced, List.append_nil]
    refine hcons.trans ?_
    by_cases hid : pkt.executeId = some t <;> simp [handledOf, hid]
  · rfl
  · simp only [tx, hout, List.append_nil, responsesOf_append]
  · rfl
  · simp only [tx, tookBy_append, responsesOf_append]
    funext o
    have htook : tookBy o (SysEvent.handled pkt s.loop.vm loop.vm ::
        pkts.map (.produced : Packet → SysEvent σ ω)) = [] := tookBy_produced o pkts
    rw [htook, hmail o]
    exact congrArg (· ++ _) (List.append_nil _)

/-- The call of the transaction is the one of the loop, if the id is its own. -/
theorem callOf_calling {l : Loop σ ω} {c : Call σ} (hact : l.activity = .calling c) :
    callOf t l = if c.txId = t then some c else none := by
  simp only [callOf, hact]

/-- A step of the VM without a packet is a step of each transaction. -/
theorem evolves_vm {a : LoopAct σ ω} {loop : Loop σ ω} {pkts : List Packet} (hout : s.out = [])
    (hloop : Loop.Moves uuid s.loop a loop pkts) (hno : ∀ pkt, a ≠ .recv pkt)
    (hok : s.Healthy v (.vm a)) :
    Evolves t (tx v t s h) (tx v t { s with loop, out := pkts } (h ++ pkts.map .produced)) := by
  rw [tx_vm hout]
  have hsame : ∀ {l : Loop σ ω} {q : List Packet}, callOf t l = callOf t s.loop →
      responsesOf t q = [] → Evolves t (tx v t s h)
        { tx v t s h with
          call := callOf t l
          pending := (tx v t s h).pending ++ responsesOf t q } := by
    intro l q hcall hq
    refine .inl ?_
    rw [hcall, hq, List.append_nil]
    rfl
  cases hloop with
  | importModule mod hact =>
    refine hsame (by simp only [callOf, hact]) ?_
    have hne : ∀ id i, (Packet.subscribe id i).ptype ≠ .respondExecute := by rintro _ _ ⟨⟩
    rw [← List.append_nil (s.loop.vm.onImportModule uuid mod).2]
    exact responsesOf_announcements hne []
  | enter hact => exact hsame (by simp only [callOf, hact]) rfl
  | @next c val s₁ hact hstep =>
    by_cases ht : c.txId = t
    · have hcall : (tx v t s h).call = some c := (callOf_calling hact).trans (if_pos ht)
      have hone : responsesOf t [(Output.ok val false).packet c.txId c.sequence] =
          [(Output.ok val false).packet t c.sequence] := by
        rw [responsesOf_packet, if_pos ht, ht]
      have hpkt : responsesOf t [.respondExecute c.txId c.sequence false val] =
          [.respondExecute t c.sequence false val] := hone
      refine .inr ?_
      rw [hpkt, callOf_calling rfl, if_pos ht]
      exact .next hcall hstep
    · refine hsame ?_ ?_
      · rw [callOf_calling rfl, callOf_calling hact, if_neg ht, if_neg ht]
      · have hpkt : responsesOf t [(Output.ok val false).packet c.txId c.sequence] = [] := by
          rw [responsesOf_packet, if_neg ht]
        exact hpkt
  | @finish c out s₁ hact hstep hfin =>
    by_cases ht : c.txId = t
    · have hcall : (tx v t s h).call = some c := (callOf_calling hact).trans (if_pos ht)
      refine .inr ?_
      rw [responsesOf_packet, if_pos ht, ht]
      exact .finish hcall hstep hfin
    · refine hsame ?_ (responsesOf_packet.trans (if_neg ht))
      rw [callOf_calling hact, if_neg ht]
      rfl
  | @throwCall c f hact hstep =>
    have hret := hok.1.2
    simp [hact, hstep, Vm.returned] at hret
  | stop hact => exact absurd hok.2.2 (by simp [Running])
  | disconnect id hact => exact hsame (by simp only [callOf, hact]) rfl
  | _ => exact absurd rfl (hno _)

/-- The VM handles a packet that does not belong to the transaction, and makes none that does. -/
theorem evolves_handle_other {pkt : Packet} {rest pkts : List Packet} {loop : Loop σ ω}
    (hout : s.out = []) (hq : s.net.mailbox v = pkt :: rest) (hfor : pkt.ForVm)
    (hpkt : pkt.executeId ≠ some t) (hcall : callOf t loop = callOf t s.loop)
    (hpkts : responsesOf t pkts = []) :
    Evolves t (tx v t s h)
      (tx v t ⟨{ s.net with mailbox := Function.update s.net.mailbox v rest }, loop, pkts⟩
        (h ++ .handled pkt s.loop.vm loop.vm :: pkts.map .produced)) := by
  refine .inl ?_
  rw [tx_vmRecv hout hq hfor, if_neg hpkt, hcall, hpkts, List.append_nil, List.append_nil]
  ext1
  · rfl
  · rfl
  · simp only [tx, hq]
    exact (executesOf_cons_of_ne hpkt).symm
  · rfl
  · rfl
  · rfl
  · rfl
  · rfl

/-- The VM answers a request at once, with a last packet behind its announcements. -/
theorem evolves_answer {t' : TxId} {r : Request} {rest pkts : List Packet} {vm : Vm σ ω}
    {out : Output} (hout : s.out = []) (hq : s.net.mailbox v = .execute t' r :: rest)
    (hact : s.loop.activity = .listening) (houts : s.loop.vm.Outputs r [out])
    (hfin : out.final = true)
    (hpkts : ∀ t, responsesOf t pkts = responsesOf t [out.packet t' 0]) :
    Evolves t (tx v t s h)
      (tx v t ⟨{ s.net with mailbox := Function.update s.net.mailbox v rest },
        ⟨vm, .listening⟩, pkts⟩
        (h ++ .handled (.execute t' r) s.loop.vm vm :: pkts.map .produced)) := by
  have hcall : callOf t (⟨vm, .listening⟩ : Loop σ ω) = callOf t s.loop := by
    simp only [callOf, hact]
  by_cases ht : t' = t
  · subst ht
    rw [tx_vmRecv hout hq (.execute t' r), if_pos executeId_execute, hpkts, responsesOf_packet,
      if_pos rfl, hcall]
    have hdel : (tx v t' s h).delivered = .execute t' r :: executesOf t' rest := by
      simp only [tx, hq]
      exact executesOf_cons executeId_execute
    exact .inr (.answer hdel houts hfin)
  · have hne : (Packet.execute t' r).executeId ≠ some t := by simpa using ht
    refine evolves_handle_other hout hq (.execute t' r) hne hcall ?_
    rw [hpkts, responsesOf_packet, if_neg ht]

/-- The handling of a packet is a step of each transaction. -/
theorem evolves_vmRecv {pkt : Packet} {rest pkts : List Packet} {loop : Loop σ ω}
    (ht : s.Traffic v) (hout : s.out = []) (hq : s.net.mailbox v = pkt :: rest)
    (hloop : Loop.Moves uuid s.loop (.recv pkt) loop pkts) (hgo : s.loop.activity ≠ .draining)
    (hok : s.Healthy v .vmRecv) :
    Evolves t (tx v t s h)
      (tx v t ⟨{ s.net with mailbox := Function.update s.net.mailbox v rest }, loop, pkts⟩
        (h ++ .handled pkt s.loop.vm loop.vm :: pkts.map .produced)) := by
  have hfor : pkt.ForVm := ht.forVm pkt (by rw [hq]; exact .head _)
  cases hloop with
  | respond ids hact hp =>
    have hne : pkt.executeId ≠ some t := executeId_of_ptype (by rw [hp]; rintro ⟨⟩)
    exact evolves_handle_other hout hq hfor hne (by simp only [callOf, hact]) rfl
  | @refuse t' r e vm hact houts halike =>
    have hpkts : ∀ t, responsesOf t [.respondExecuteError t' 0 e.reason] =
        responsesOf t [(Output.error e).packet t' 0] := fun _ => rfl
    exact evolves_answer hout hq hact houts rfl hpkts
  | @call t' r c hact hfinds htx hseq hsite hyields =>
    by_cases heq : t' = t
    · subst heq
      rw [tx_vmRecv hout hq hfor, if_pos executeId_execute, callOf_calling rfl, if_pos htx]
      have hdel : (tx v t' s h).delivered = .execute t' r :: executesOf t' rest := by
        simp only [tx, hq]
        exact executesOf_cons executeId_execute
      have hcall := Tx.Step.call hdel hfinds htx hseq hyields
      refine .inr ?_
      rw [← List.append_nil (tx v t' s h).pending] at hcall
      exact hcall
    · have hne : (Packet.execute t' r).executeId ≠ some t := by simpa using heq
      refine evolves_handle_other hout hq hfor hne ?_ rfl
      rw [callOf_calling rfl, htx, if_neg heq]
      simp only [callOf, hact]
  | @define t' comptype compname input comp env hact hmakes =>
    have hne : ∀ id i, (Packet.subscribe id i).ptype ≠ .respondExecute := by rintro _ _ ⟨⟩
    exact evolves_answer hout hq hact hmakes.outputs rfl fun t =>
      responsesOf_announcements hne _
  | @delete t' compname comp hact hold =>
    have hne : ∀ id i, (Packet.unsubscribe id i).ptype ≠ .respondExecute := by rintro _ _ ⟨⟩
    exact evolves_answer hout hq hact (Vm.outputs_delete hold) rfl fun t =>
      responsesOf_announcements hne _
  | @throwRequest t' r f hact hret =>
    have hnext : s.nextRequest v .vmRecv = some r.filled := by
      simp only [nextRequest, hact, hq, Packet.request?_execute]
    have hret' := hok.1.1 _ hnext
    rw [Vm.returns_filled, hret] at hret'
    cases hret'
  | drain ids hact => exact absurd hact hgo

/-! ## All steps -/

/-- A step of the system is a step of each transaction, when no packet of it is lost. -/
theorem Moves.tx (ht : s.Traffic v) (hgo : s.loop.activity ≠ .draining) {a : SysAct σ ω}
    {es : List (SysEvent σ ω)} (hm : Moves v uuid s a es s') (hfresh : Fresh h a)
    (hok : s.Healthy v a) (hloss : s.Lossless v a) :
    Evolves t (Sys.tx v t s h) (Sys.tx v t s' (h ++ es)) := by
  cases hm with
  | idle =>
    rw [List.append_nil]
    exact .inl rfl
  | accept hc =>
    rw [List.append_nil]
    exact .inl rfl
  | client m hc _ => exact evolves_client hc m hfresh
  | take hc hq => exact .inl (tx_take hc hq)
  | @reply c msg reply rest b hq hexec hresp _ htx _ _ hpt =>
    have hreply : reply.ptype ≠ .execute := by rw [hpt]; rintro ⟨⟩
    have hreply' : reply.ptype ≠ .respondExecute := by rw [hpt]; rintro ⟨⟩
    refine .inl (tx_deliver_other hq (executeId_of_ptype hexec) (not_responds_of_ptype hresp)
      (executeId_of_ptype hreply) (not_responds_of_ptype hreply') ?_)
    rw [htx]
  | refuse hc hq _ hsends => exact evolves_refuse hc hq (hloss _ hsends (.inr rfl))
  | forward hc hq _ hsends => exact evolves_forward hc hq (hloss _ hsends (.inl rfl))
  | @relay c t' i out rest b hc hq hopen _ hb hsends =>
    have hpt : (out.packet t' i).ptype = .respondExecute := (Output.responds_packet t' i out).1
    exact evolves_relay hc hq hopen hb (hloss _ hsends (.inr hpt))
  | vanish hq hopen => exact evolves_vanish hq hopen
  | vm hout hloop hno => exact evolves_vm hout hloop hno hok
  | vmRecv hout hq hloop => exact evolves_vmRecv ht hout hq hloop hgo hok
  | @vmSend pkt rest hout =>
    -- The packet goes from the VM's hands to the end of the mailbox.
    have hexec : pkt.executeId ≠ some t :=
      (ht.ofVm pkt (by rw [hout]; exact List.mem_append_right _ (.head _))).executeId
    refine .inl ?_
    rw [List.append_nil]
    ext1
    · rfl
    · simp only [Sys.tx]
      rw [executesOf_update, update_same]
      rw [executesOf_append, executesOf_cons_of_ne hexec]
      exact List.append_nil _
    · rfl
    · rfl
    · rfl
    · simp only [Sys.tx, hout, Function.update_self, List.append_assoc, List.singleton_append]
    · rfl
    · rfl
  | @vmDrop pkt rest hout hsends hfull =>
    -- What is dropped is no response: those find room.
    have hresp : ¬ pkt.Responds t := by
      rintro ⟨hpt, -⟩
      have hroom : (s.net.inbox v).length < Mailbox.limit := hloss _ hsends (.inr hpt)
      omega
    refine .inl ?_
    rw [List.append_nil]
    ext1
    · rfl
    · rfl
    · rfl
    · rfl
    · rfl
    · simp only [Sys.tx, hout, responsesOf_append]
      rw [responsesOf_cons_of_not hresp]
    · rfl
    · rfl
  | vmAbort f hout hsends hfull hact =>
    have hroom : (s.net.inbox v).length < Mailbox.limit := by
      have himp := hok.2.1
      simpa [Imports, hact] using himp
    omega

end Sys

end Ailoy
