import Ailoy.Broker.History

/-!
# Routing of responses

A response reaches a client only if the client has asked for it, and nothing follows a finishing
response. The table `transactions` and the history are linked by `Routing`: an open transaction has
been requested by its entry's socket, and a transaction that a finishing response was put for is not
open any more. When the ids of the `execute` packets are pairwise distinct, no transaction is opened
twice (`executeId_unique`), so a finished one stays finished.
-/

namespace Ailoy

open Transition

namespace Net

/-- The transaction id of an `execute` that a peer sends. -/
def executeIdOf : NetEvent → Option TxId
  | .sent _ pkt => pkt.executeId
  | _ => none

/-- The transaction ids of the `execute` packets that the peers have sent. -/
def executeIds (h : List NetEvent) : List TxId := h.filterMap executeIdOf

/-- What must have happened before a response of `t` is put in a mailbox: its owner has sent an
`execute` of `t`, no finishing response of `t` was put before, and a forwarded response has just
been received. -/
structure Routed (pre : List NetEvent) (dest : SocketName) (source : Option SocketName)
    (pkt : Packet) (t : TxId) : Prop where
  requested : ∃ q ∈ sentBy dest pre, q.executeId = some t
  unfinished : ∀ c, ∀ e ∈ putsTo c pre, ¬ e.2.Finishes t
  once : ∀ s, source = some s → ∃ pre', pre = pre' ++ [.received s pkt]

/-- Every response that is put in a mailbox is routed. -/
def AllRouted (h : List NetEvent) : Prop :=
  Each (fun pre e => ∀ dest source pkt t, e = .put dest source pkt → pkt.Responds t →
    Routed pre dest source pkt t) h

/-- What the table of transactions and the history have to do with each other. -/
structure Routing (n : Net) (h : List NetEvent) : Prop where
  opened : ∀ t c, n.broker.transactions.lookup t = some c →
    ∃ q ∈ receivedBy c h, q.executeId = some t
  finished : ∀ c t, ∀ e ∈ putsTo c h, e.2.Finishes t →
    n.broker.transactions.lookup t = none ∧ ∃ s, ∃ q ∈ receivedBy s h, q.executeId = some t
  routed : AllRouted h

/-! ## Distinct ids -/

/-- The ids that one peer has executed are among all of them, in order. -/
theorem executeIds_sentBy (s : SocketName) (h : List NetEvent) :
    ((sentBy s h).filterMap Packet.executeId).Sublist (executeIds h) := by
  induction h with
  | nil => exact List.Sublist.refl []
  | cons e h ih =>
    have hcons : ∀ e : NetEvent, sentBy s (e :: h) = sentBy s [e] ++ sentBy s h :=
      fun e => sentBy_append s [e] h
    have hcons' : executeIds (e :: h) = executeIds [e] ++ executeIds h :=
      List.filterMap_append (l := [e])
    rw [hcons, hcons', List.filterMap_append]
    refine List.Sublist.append ?_ ih
    cases e with
    | sent s' pkt =>
      by_cases hs : s' = s
      · have hone : sentBy s [.sent s' pkt] = [pkt] := by simp [sentBy, hs]
        rw [hone]
        exact List.Sublist.refl _
      · have hnone : sentBy s [.sent s' pkt] = [] := by simp [sentBy, hs]
        rw [hnone]
        exact List.nil_sublist _
    | _ => exact List.nil_sublist _

/-- With distinct ids, the transaction of the next `execute` has not been executed before. -/
theorem executeId_unique {n : Net} {h : List NetEvent} {s s' : SocketName} {msg q : Packet}
    {rest : List Packet} {t : TxId} (hf : Fifo n h) (hd : (executeIds h).Nodup)
    (hq : n.inbox s = msg :: rest) (hmsg : msg.executeId = some t)
    (hmem : q ∈ receivedBy s' h) : q.executeId ≠ some t := by
  intro heq
  by_cases hs : s' = s
  · -- Both are among the packets of one peer: `q` received, and `msg` still queued.
    subst hs
    have hnodup := hd.sublist (executeIds_sentBy s' h)
    rw [hf.inbox, hq, List.filterMap_append, List.nodup_append] at hnodup
    have hleft : t ∈ (receivedBy s' h).filterMap Packet.executeId :=
      List.mem_filterMap.mpr ⟨q, hmem, heq⟩
    have hright : t ∈ (msg :: rest).filterMap Packet.executeId :=
      List.mem_filterMap.mpr ⟨msg, List.mem_cons_self .., hmsg⟩
    exact hnodup.2.2 t hleft t hright rfl
  · have hsent : NetEvent.sent s' q ∈ h := by
      rw [← mem_sentBy, hf.inbox]
      exact List.mem_append_left _ hmem
    have hsent' : NetEvent.sent s msg ∈ h := by
      rw [← mem_sentBy, hf.inbox, hq]
      exact List.mem_append_right _ (List.mem_cons_self ..)
    have hpair : h.Pairwise fun e e' => ∀ i, executeIdOf e = some i →
        ∀ i', executeIdOf e' = some i' → i ≠ i' := List.pairwise_filterMap.mp hd
    have : Std.Symm fun e e' : NetEvent => ∀ i, executeIdOf e = some i →
        ∀ i', executeIdOf e' = some i' → i ≠ i' :=
      ⟨fun _ _ hr i hi i' hi' => (hr i' hi' i hi).symm⟩
    have hne : NetEvent.sent s' q ≠ .sent s msg := fun he => hs (NetEvent.sent.inj he).1
    exact hpair.forall hsent hsent' hne t heq t hmsg rfl

/-! ## The handling of one message -/

/-- A transaction that is open after a message was open before, or the message opens it. -/
theorem opened_of_handles {b b' : Broker} {s c : SocketName} {msg : Packet} {send : Option Send}
    {t : TxId} (hh : Broker.Handles b s msg (b', send))
    (ht : b'.transactions.lookup t = some c) :
    b.transactions.lookup t = some c ∨ (c = s ∧ msg.executeId = some t) := by
  generalize hr : (b', send) = r at hh
  obtain rfl : b' = r.1 := by rw [← hr]
  cases hh with
  | connect => exact .inl ht
  | ignored => exact .inl ht
  | disconnect => exact .inl ht
  | subscribe => exact .inl (by simpa using ht)
  | unsubscribe => exact .inl (by simpa using ht)
  | execute hp htx hch =>
    rw [Broker.transactions_onExecute] at ht
    split_ifs at ht with hnew
    · obtain ⟨rfl, -⟩ := hnew
      exact .inr ⟨(Option.some.inj ht).symm, by simp [Packet.executeId, hp, htx, Except.toOption]⟩
    · exact .inl ht
  | respondExecute hp htx hfin =>
    rw [Broker.transactions_onRespondExecute] at ht
    split_ifs at ht
    exact .inl ht

/-- A response that is put for a message: the broker's own error for an `execute` that no channel
can handle, or the message itself, which goes to the requester of its open transaction and closes it
if it is the last. -/
theorem put_of_handles {b b' : Broker} {s dest : SocketName} {msg pkt : Packet}
    {send : Option Send} {source : Option SocketName} {t : TxId}
    (hh : Broker.Handles b s msg (b', send)) (hput : Sends s msg send dest source pkt)
    (ht : pkt.Responds t) :
    (dest = s ∧ source = none ∧ msg.executeId = some t ∧ b' = b) ∨
      (source = some s ∧ pkt = msg ∧ b.transactions.lookup t = some dest ∧
        (pkt.Finishes t → b'.transactions.lookup t = none)) := by
  obtain ⟨hpt, htx'⟩ := ht
  generalize hr : (b', send) = r at hh
  cases hh with
  | connect => cases hr; cases hput; cases hpt
  | ignored => cases hr; cases hput
  | disconnect => cases hr; cases hput; cases hpt
  | @subscribe txId channel =>
    unfold Broker.onSubscribe at hr
    split at hr <;> cases hr <;> cases hput <;> cases hpt
  | @unsubscribe txId channel =>
    unfold Broker.onUnsubscribe at hr
    split at hr
    · cases hr; cases hput; cases hpt
    · split at hr <;> cases hr <;> cases hput <;> cases hpt
  | @execute txId channel hp htx hch =>
    unfold Broker.onExecute at hr
    split at hr
    · cases hr
      cases hput
      obtain rfl : txId = t := by simpa using htx'
      exact .inl ⟨rfl, rfl, by simp [Packet.executeId, hp, htx, Except.toOption], rfl⟩
    · cases hr
      cases hput
      rw [hp] at hpt
      cases hpt
  | @respondExecute txId finish hp htx hfin =>
    have hclose := Broker.transactions_onRespondExecute b txId finish t
    rw [← hr] at hclose
    unfold Broker.onRespondExecute at hr
    split at hr
    · cases hr; cases hput
    · rename_i target htarget
      have hsend : send = some (.forward target) := by
        split_ifs at hr <;> exact (Prod.mk.inj hr).2
      subst hsend
      cases hput
      obtain rfl : txId = t := by
        rw [htx] at htx'
        exact Except.ok.inj htx'
      refine .inr ⟨rfl, rfl, htarget, fun hfinal => ?_⟩
      have hfinish : finish = true := Except.ok.inj (hfin.symm.trans hfinal.2)
      rwa [if_pos ⟨rfl, hfinish⟩] at hclose

/-! ## The invariant -/

section Events

variable {c s : SocketName} {h es : List NetEvent}

/-- What the broker has received before the events `es` is still in the history. -/
theorem mem_receivedBy_append {q : Packet} (hq : q ∈ receivedBy s h) :
    q ∈ receivedBy s (h ++ es) := by
  rw [receivedBy_append]
  exact List.mem_append_left _ hq

/-- What is put for `c` after the events `es` was put before or is put by `es`. -/
theorem mem_putsTo_append {e : Option SocketName × Packet} :
    e ∈ putsTo c (h ++ es) ↔ e ∈ putsTo c h ∨ e ∈ putsTo c es := by
  rw [putsTo_append, List.mem_append]

end Events

/-- The invariant after a handled message, with the events `es` of the message and of at most one
response. A transaction that has been executed before is not the one that the message executes. -/
theorem Routing.handled {n n' : Net} {h es : List NetEvent} {s : SocketName} {msg : Packet}
    {rest : List Packet} {send : Option Send} (hf : Fifo n h) (hi : Routing n h)
    (hd : (executeIds h).Nodup) (hq : n.inbox s = msg :: rest)
    (hh : Broker.Handles n.broker s msg (n'.broker, send))
    (hes : es = [.received s msg] ∨ ∃ dest source pkt, Sends s msg send dest source pkt ∧
      es = [.received s msg, .put dest source pkt]) : Routing n' (h ++ es) := by
  have hnow : msg ∈ receivedBy s (h ++ es) := by
    rw [receivedBy_append]
    apply List.mem_append_right
    rcases hes with rfl | ⟨dest, source, pkt, -, rfl⟩ <;> simp [receivedBy]
  have hfresh : ∀ t, msg.executeId = some t → ¬ ∃ s', ∃ q ∈ receivedBy s' h, q.executeId = some t := by
    rintro t hmsg ⟨s', q, hmem, hid⟩
    exact executeId_unique hf hd hq hmsg hmem hid
  -- A transaction that was closed stays so, unless the message opens it.
  have hclosed : ∀ t, n.broker.transactions.lookup t = none → msg.executeId ≠ some t →
      n'.broker.transactions.lookup t = none := by
    intro t hnone hmsg
    cases ht : n'.broker.transactions.lookup t with
    | none => rfl
    | some c =>
      rcases opened_of_handles hh ht with hold | ⟨-, hid⟩
      · exact absurd (hold.symm.trans hnone) (by simp)
      · exact absurd hid hmsg
  -- What is open was open, or this message opens it.
  have hopened : ∀ t c, n'.broker.transactions.lookup t = some c →
      ∃ q ∈ receivedBy c (h ++ es), q.executeId = some t := by
    intro t c ht
    rcases opened_of_handles hh ht with hold | ⟨rfl, hid⟩
    · obtain ⟨q, hmem, hid⟩ := hi.opened t c hold
      exact ⟨q, mem_receivedBy_append hmem, hid⟩
    · exact ⟨msg, hnow, hid⟩
  have hfinished : ∀ c t, ∀ e ∈ putsTo c h, e.2.Finishes t →
      n'.broker.transactions.lookup t = none ∧
        ∃ s, ∃ q ∈ receivedBy s (h ++ es), q.executeId = some t := by
    intro c t e he hfin
    obtain ⟨hnone, hseen⟩ := hi.finished c t e he hfin
    refine ⟨hclosed t hnone fun hmsg => hfresh t hmsg hseen, ?_⟩
    obtain ⟨s', q, hmem, hid⟩ := hseen
    exact ⟨s', q, mem_receivedBy_append hmem, hid⟩
  rcases hes with rfl | ⟨dest, source, pkt, hput, rfl⟩
  · refine ⟨hopened, fun c t e he => ?_, each_concat.mpr ⟨hi.routed, ?_⟩⟩
    · rw [mem_putsTo_append] at he
      rcases he with he | he
      · exact hfinished c t e he
      · simp [putsTo] at he
    · rintro _ _ _ _ ⟨⟩
  · refine ⟨hopened, fun c t e he hfin => ?_, ?_⟩
    · rw [mem_putsTo_append] at he
      rcases he with he | he
      · exact hfinished c t e he hfin
      · -- The response put for this message is the last one.
        obtain ⟨rfl, rfl⟩ : dest = c ∧ (source, pkt) = e := by simpa [putsTo] using he
        rcases put_of_handles hh hput hfin.1 with ⟨-, -, hid, hb⟩ | ⟨-, rfl, htx, hclose⟩
        · refine ⟨?_, s, msg, hnow, hid⟩
          rw [hb]
          cases ht : n.broker.transactions.lookup t with
          | none => rfl
          | some c => exact absurd ⟨c, hi.opened t c ht⟩ (hfresh t hid)
        · obtain ⟨q, hmem, hid⟩ := hi.opened t dest htx
          exact ⟨hclose hfin, dest, q, mem_receivedBy_append hmem, hid⟩
    · have hsplit : h ++ [.received s msg, .put dest source pkt] =
          (h ++ [.received s msg]) ++ [.put dest source pkt] := by simp
      rw [hsplit, AllRouted, each_concat, each_concat]
      refine ⟨⟨hi.routed, by rintro _ _ _ _ ⟨⟩⟩, ?_⟩
      rintro _ _ _ t ⟨⟩ ht
      rcases put_of_handles hh hput ht with ⟨rfl, rfl, hid, -⟩ | ⟨rfl, rfl, htx, -⟩
      · refine ⟨⟨msg, ?_, hid⟩, fun c e he hfin => ?_, by rintro _ ⟨⟩⟩
        · rw [sentBy_append, hf.inbox, hq]
          simp
        · rw [mem_putsTo_append] at he
          rcases he with he | he
          · exact hfresh t hid (hi.finished c t e he hfin).2
          · simp [putsTo] at he
      · -- A relayed response goes to the socket that opened the transaction.
        refine ⟨?_, fun c e he hfin => ?_, ?_⟩
        · obtain ⟨q, hmem, hid⟩ := hi.opened t dest htx
          refine ⟨q, ?_, hid⟩
          rw [sentBy_append, hf.inbox]
          simp [hmem]
        · rw [mem_putsTo_append] at he
          rcases he with he | he
          · have hnone := (hi.finished c t e he hfin).1
            rw [htx] at hnone
            cases hnone
          · simp [putsTo] at he
        · rintro _ ⟨⟩
          exact ⟨h, rfl⟩

/-- The invariant after any step. -/
theorem Routing.moves {n n' : Net} {h es : List NetEvent} (hf : Fifo n h) (hi : Routing n h)
    (hd : (executeIds h).Nodup) (hm : Moves n es n') : Routing n' (h ++ es) := by
  cases hm with
  | idle =>
    rw [List.append_nil]
    exact hi
  | accept hs =>
    rw [List.append_nil]
    exact ⟨hi.opened, hi.finished, hi.routed⟩
  | send s pkt =>
    refine ⟨?_, ?_, each_concat.mpr ⟨hi.routed, by rintro _ _ _ _ ⟨⟩⟩⟩
    · simpa [receivedBy_append, receivedBy] using hi.opened
    · simpa [receivedBy_append, putsTo_append, receivedBy, putsTo] using hi.finished
  | @handle s msg rest broker send hs hq hh =>
    exact hi.handled hf hd hq hh (.inl rfl)
  | @handlePut s dest msg pkt rest broker send source hs hq hh hput =>
    exact hi.handled hf hd hq hh (.inr ⟨dest, source, pkt, hput, rfl⟩)
  | take hq =>
    refine ⟨?_, ?_, each_concat.mpr ⟨hi.routed, by rintro _ _ _ _ ⟨⟩⟩⟩
    · simpa [receivedBy_append, receivedBy] using hi.opened
    · simpa [receivedBy_append, putsTo_append, receivedBy, putsTo] using hi.finished

/-- The invariant holds in every run whose `execute` packets have distinct ids. -/
theorem routing_of_reach {r : Recorded Net NetEvent} (hr : Reach recordedStep recordedEmpty r)
    (hd : (executeIds r.history).Nodup) : Routing r.state r.history := by
  have h₀ : Routing recordedEmpty.state recordedEmpty.history :=
    ⟨fun t c ht => by simp [recordedEmpty, empty, Broker.empty] at ht,
      fun c t e he => by simp [recordedEmpty, putsTo] at he, each_nil⟩
  refine hr.invariant (P := fun r => (executeIds r.history).Nodup → Routing r.state r.history)
    (fun _ => h₀) ?_ hd
  rintro ⟨n, h⟩ a ⟨n', h'⟩ hreach ih - hstep hd
  obtain ⟨hstep, rfl⟩ := record_eq_some_iff.mp hstep
  have hd' : (executeIds h).Nodup := by
    have happ : executeIds (h ++ n.emits a) = executeIds h ++ executeIds (n.emits a) :=
      List.filterMap_append
    rw [happ] at hd
    exact hd.of_append_left
  exact (ih hd').moves (fifo_of_reach hreach) hd' (moves_of_step hstep)

/-- In every run of the broker in which the ids of the `execute` packets are pairwise distinct:
a response of `t` is put in a mailbox only if its owner has sent an `execute` of `t`, no finishing
response of `t` was put before, and a forwarded response has just been received; the broker receives
what a peer has sent in order, and forwards of it each packet at most once and in that order; and a
peer takes what was put for it in order. -/
theorem responses_routed (r : Recorded Net NetEvent) (hr : Reach recordedStep recordedEmpty r)
    (hd : (executeIds r.history).Nodup) :
    AllRouted r.history ∧
      (∀ s, sentBy s r.history = receivedBy s r.history ++ r.state.inbox s) ∧
      (∀ s, (forwardsOf s r.history).Sublist (receivedBy s r.history)) ∧
      ∀ c, (putsTo c r.history).map Prod.snd = tookBy c r.history ++ r.state.mailbox c :=
  have hf := fifo_of_reach hr
  ⟨(routing_of_reach hr hd).routed, hf.inbox, hf.forwards, hf.mailbox⟩

/-- A client calls a function of the peer `0`, which answers twice, and takes the answers. -/
def answeredRun : List NetAct :=
  [.accept "0", .send "0" (.subscribe "s" (.callFunction "f")), .recv "0", .accept "1",
    .send "1" (.execute "t" (.callFunction "f" none)), .recv "1",
    .send "0" (.respondExecute "t" 0 false .null), .send "0" (.respondExecute "t" 1 true .null),
    .recv "0", .recv "0", .take "1", .take "1"]

theorem responses_routed_answeredRun :
    ∃ r : Recorded Net NetEvent, Reach recordedStep recordedEmpty r ∧
      (executeIds r.history).Nodup ∧ AllRouted r.history ∧
      (∀ s, sentBy s r.history = receivedBy s r.history ++ r.state.inbox s) ∧
      (∀ s, (forwardsOf s r.history).Sublist (receivedBy s r.history)) ∧
      ∀ c, (putsTo c r.history).map Prod.snd = tookBy c r.history ++ r.state.mailbox c := by
  have hend : (run recordedStep recordedEmpty answeredRun).map
      (fun r => (executeIds r.history, (tookBy "1" r.history).length)) = some (["t"], 2) := by
    decide
  obtain ⟨r, hr, hids⟩ := Option.map_eq_some_iff.mp hend
  have hd : (executeIds r.history).Nodup := by
    rw [(Prod.mk.inj hids).1]
    exact List.nodup_singleton "t"
  exact ⟨r, reach_of_run hr, hd, responses_routed r (reach_of_run hr) hd⟩

end Net

end Ailoy
