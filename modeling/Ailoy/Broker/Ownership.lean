import Ailoy.Broker.History
import Ailoy.Broker.Isolation

/-!
# Ownership of channels

A channel belongs to the socket that its entry in the table of subscriptions names. The three cases
of the switch that write the table each guard it: `subscribe` takes free channels only,
`unsubscribe` drops an entry of the sender only, and the sweep of `disconnect` drops the entries of
the sender only. So a handled packet changes no entry of another socket (`Handles.isolates`), and
what its owner neither unsubscribes nor leaves by a disconnect stays its own for the rest of the
run. Times are those of the broker's loop: a packet counts when the loop receives it.
-/

namespace Ailoy

open Transition

/-- A packet by which its sender gives the channel up: an `unsubscribe` of it, or a `disconnect`. -/
def Packet.Releases (p : Packet) (channel : Channel) : Prop :=
  (p.ptype = .unsubscribe ∧ p.getChannel = .ok channel) ∨ p.ptype = .disconnect

/-- A packet that asks the owner of the channel to execute something. -/
def Packet.Executes (p : Packet) (channel : Channel) : Prop :=
  p.ptype = .execute ∧ p.getChannel = .ok channel

namespace Broker

variable {b : Broker} {socket owner : SocketName} {pkt : Packet} {channel : Channel}

/-- The table of subscriptions has one entry for a channel at most. -/
theorem owner_unique {o o' : SocketName} (h : Sigma.mk channel o ∈ b.subscriptions.entries)
    (h' : Sigma.mk channel o' ∈ b.subscriptions.entries) : o = o' := by
  rw [UnorderedMap.mem_entries_iff] at h h'
  exact Option.some.inj (h.symm.trans h')

/-- A handled packet leaves a channel with its owner, unless the owner gives it up by it. -/
theorem Handles.keeps_owner {r : Broker × Option Send} (h : Handles b socket pkt r)
    (ho : b.subscriptions.lookup channel = some owner) :
    r.1.subscriptions.lookup channel = some owner ∨ (socket = owner ∧ pkt.Releases channel) := by
  by_cases hs : owner = socket
  · subst hs
    cases h with
    | connect => exact .inl ho
    | ignored => exact .inl ho
    | disconnect hp => exact .inr ⟨rfl, .inr hp⟩
    | @subscribe txId ch hp htx hch =>
      left
      rw [subscriptions_onSubscribe, ho]
      rfl
    | @unsubscribe txId ch hp htx hch =>
      by_cases hc : channel = ch
      · exact .inr ⟨rfl, .inl ⟨hp, hc ▸ hch⟩⟩
      · left
        rw [subscriptions_onUnsubscribe, if_neg fun h => hc h.1]
        exact ho
    | execute =>
      left
      rwa [subscriptions_onExecute]
    | respondExecute =>
      left
      rwa [subscriptions_onRespondExecute]
  · exact .inl ((h.isolates.subscriptions channel owner hs).mpr ho)

/-- An `execute` of an owned channel is forwarded to the owner. -/
theorem Handles.execute_target {b' : Broker} {send : Option Send}
    (h : Handles b socket pkt (b', send)) (hex : pkt.Executes channel)
    (ho : b.subscriptions.lookup channel = some owner) : send = some (.forward owner) := by
  obtain ⟨hp, hch⟩ := hex
  generalize hr : (b', send) = r at h
  cases h with
  | @execute txId ch _ _ hch' =>
    obtain rfl : channel = ch := Except.ok.inj (hch.symm.trans hch')
    simp only [onExecute, ho] at hr
    exact (Prod.mk.inj hr).2
  | connect hp' | disconnect hp' | subscribe hp' | unsubscribe hp' | respondExecute hp' =>
    rw [hp] at hp'
    cases hp'
  | ignored hp' =>
    rw [hp] at hp'
    rcases hp' with hp' | ⟨code, hp'⟩ <;> cases hp'

end Broker

namespace Net

variable {n n' : Net} {channel : Channel} {owner : SocketName}

/-- A step leaves a channel with its owner, unless the broker receives from the owner a packet that
gives it up. -/
theorem Moves.keeps_owner {es : List NetEvent} (hm : Moves n es n')
    (ho : n.broker.subscriptions.lookup channel = some owner) :
    n'.broker.subscriptions.lookup channel = some owner ∨
      ∃ pkt, .received owner pkt ∈ es ∧ pkt.Releases channel := by
  cases hm with
  | idle => exact .inl ho
  | accept => exact .inl ho
  | send => exact .inl ho
  | take => exact .inl ho
  | handle _ _ hh | handlePut _ _ hh =>
    rcases hh.keeps_owner ho with hkept | ⟨rfl, hrel⟩
    · exact .inl hkept
    · exact .inr ⟨_, List.mem_cons_self .., hrel⟩

/-- Over a run, a channel stays with its owner until the broker receives from the owner a packet
that gives it up. -/
theorem owner_of_reach {r r' : Recorded Net NetEvent} (h : Reach recordedStep r r')
    (ho : r.state.broker.subscriptions.lookup channel = some owner) :
    r'.state.broker.subscriptions.lookup channel = some owner ∨
      ∃ pkt es, r'.history = r.history ++ es ∧ .received owner pkt ∈ es ∧
        pkt.Releases channel := by
  induction h with
  | init => exact .inl ho
  | @step r₁ r₂ a hr _ hs ih =>
    obtain ⟨hstep, hhist⟩ := record_eq_some_iff.mp hs
    rcases ih with hown | ⟨pkt, es, hes, hmem, hrel⟩
    · rcases (moves_of_step hstep).keeps_owner hown with hkept | ⟨pkt, hmem, hrel⟩
      · exact .inl hkept
      · obtain ⟨es, hes⟩ := hr.history_prefix
        refine .inr ⟨pkt, es ++ r₁.state.emits a, ?_, List.mem_append_right _ hmem, hrel⟩
        rw [hhist, ← hes, List.append_assoc]
    · refine .inr ⟨pkt, es ++ r₁.state.emits a, ?_, List.mem_append_left _ hmem, hrel⟩
      rw [hhist, hes, List.append_assoc]

/-- The step in which the broker receives an `execute` of an owned channel: the owner gets it, if
its mailbox has room, and nobody else does. -/
theorem execute_delivered {a : NetAct} {s : SocketName} {pkt : Packet} (hstep : n.step a = some n')
    (hmem : .received s pkt ∈ n.emits a) (hex : pkt.Executes channel)
    (ho : n.broker.subscriptions.lookup channel = some owner) :
    n.emits a = [.received s pkt, .put owner (some s) pkt] ∨
      (n.emits a = [.received s pkt] ∧ Mailbox.limit ≤ (n.mailbox owner).length) := by
  cases a with
  | accept s' => cases hmem
  | send s' pkt' =>
    simp only [emits] at hmem
    split_ifs at hmem <;> simp at hmem
  | take s' =>
    simp only [emits] at hmem
    split at hmem <;> simp at hmem
  | recv s' =>
    rcases recv_cases hstep with ⟨-, hno | hno⟩ | ⟨msg, rest, broker, send, hs, hq, hh, -⟩
    · simp [emits, hno] at hmem
    · simp [emits, hno] at hmem
    · have hemits : n.emits (.recv s') = .received s' msg :: n.emitsSend s' msg send := by
        simp only [emits, if_pos hs, hq, hh]
      -- The only reception of the step is the one of its message.
      have hmsg : s = s' ∧ pkt = msg := by
        rw [hemits] at hmem
        rcases List.mem_cons.mp hmem with hfirst | hsend
        · exact NetEvent.received.inj hfirst
        · cases send with
          | none => cases hsend
          | some send =>
            cases send <;> simp only [emitsSend] at hsend <;> split_ifs at hsend <;>
              simp at hsend
      obtain ⟨rfl, rfl⟩ := hmsg
      obtain rfl := (Broker.handles_of_handle hh).execute_target hex ho
      rw [hemits]
      by_cases hfull : Mailbox.limit ≤ (n.mailbox owner).length
      · right
        simp [emitsSend, deliver, Mailbox.set_of_le hfull, hfull]
      · left
        simp [emitsSend, deliver, Mailbox.set_of_lt (not_le.mp hfull)]

/-- In every reachable state, a well-formed packet from any socket is handled without a change of
the entries that other sockets own, and each channel has one owner at most. In every run from there,
a channel has left its owner only if the owner itself has sent an `unsubscribe` of it or a
`disconnect`, which the broker has received since. As long as it has not, an `execute` of the
channel that the broker receives is put in the mailbox of the owner and in no other; the owner
misses it only when its mailbox is full. -/
theorem channel_ownership (fromCbor : List UInt8 → Except Fault Json) (r : Recorded Net NetEvent)
    (hr : Reach recordedStep recordedEmpty r) :
    (∀ s msg, Broker.WellFormed fromCbor msg →
      ∃ b' send, r.state.broker.onMessage fromCbor s msg = .ok (b', send) ∧
        (∀ ch o, o ≠ s → (b'.subscriptions.lookup ch = some o ↔
          r.state.broker.subscriptions.lookup ch = some o)) ∧
        ∀ ch o o', Sigma.mk ch o ∈ b'.subscriptions.entries →
          Sigma.mk ch o' ∈ b'.subscriptions.entries → o = o') ∧
    ∀ ch o, r.state.broker.subscriptions.lookup ch = some o →
      ∀ r', Reach recordedStep r r' → ∀ es, r'.history = r.history ++ es →
        (r'.state.broker.subscriptions.lookup ch ≠ some o →
          ∃ pkt, .received o pkt ∈ es ∧ .sent o pkt ∈ r'.history ∧ pkt.Releases ch) ∧
        ((∀ pkt, .received o pkt ∈ es → ¬ pkt.Releases ch) →
          ∀ a r'' s pkt, recordedStep r' a = some r'' → .received s pkt ∈ r'.state.emits a →
            pkt.Executes ch →
            r''.history = r'.history ++ [.received s pkt, .put o (some s) pkt] ∨
              (r''.history = r'.history ++ [.received s pkt] ∧
                Mailbox.limit ≤ (r'.state.mailbox o).length)) := by
  refine ⟨fun s msg hwf => ?_, fun ch o ho r' hr' es hes => ⟨fun hlost => ?_, ?_⟩⟩
  · obtain ⟨pkt, b', send, -, hmsg, hiso⟩ :=
      Broker.onMessage_isolates fromCbor r.state.broker s msg hwf
    exact ⟨b', send, hmsg, hiso.subscriptions, fun _ _ _ => Broker.owner_unique⟩
  · rcases owner_of_reach hr' ho with hown | ⟨pkt, es', hes', hmem, hrel⟩
    · exact absurd hown hlost
    · obtain rfl : es = es' := List.append_cancel_left (hes.symm.trans hes')
      refine ⟨pkt, hmem, ?_, hrel⟩
      -- What the broker has received from a peer, the peer has sent.
      have hfifo := (fifo_of_reach (hr.trans hr')).inbox o
      have hrec : pkt ∈ receivedBy o r'.history := by
        rw [hes, receivedBy_append]
        exact List.mem_append_right _ (List.mem_filterMap.mpr ⟨_, hmem, by simp⟩)
      rw [← mem_sentBy, hfifo]
      exact List.mem_append_left _ hrec
  · intro hkeep a r'' s pkt hs hmem hex
    obtain ⟨hstep, hhist⟩ := record_eq_some_iff.mp hs
    have hown : r'.state.broker.subscriptions.lookup ch = some o := by
      rcases owner_of_reach hr' ho with hown | ⟨pkt', es', hes', hmem', hrel⟩
      · exact hown
      · obtain rfl : es = es' := List.append_cancel_left (hes.symm.trans hes')
        exact absurd hrel (hkeep pkt' hmem')
    rw [hhist]
    rcases execute_delivered hstep hmem hex hown with hemits | ⟨hemits, hfull⟩
    · left
      rw [hemits]
    · right
      exact ⟨by rw [hemits], hfull⟩

/-- The peer `0` offers a function. -/
def ownedRun : List NetAct :=
  [.accept "0", .send "0" (.subscribe "s" (.callFunction "f")), .recv "0"]

/-- After `ownedRun`, a client calls the function of the peer `0`. -/
def executeRun : List NetAct :=
  [.accept "1", .send "1" (.execute "t" (.callFunction "f" none))]

/-- In the next step after the two runs, the broker receives the `execute`, and the owner gets it.
-/
theorem channel_ownership_executeRun :
    ∃ r r' r'', run recordedStep recordedEmpty ownedRun = some r ∧
      run recordedStep r executeRun = some r' ∧ recordedStep r' (.recv "1") = some r'' ∧
      r''.history = r'.history ++ [.received "1" (.execute "t" (.callFunction "f" none)),
        .put "0" (some "1") (.execute "t" (.callFunction "f" none))] := by
  obtain ⟨r, hr⟩ : ∃ r, run recordedStep recordedEmpty ownedRun = some r := ⟨_, rfl⟩
  obtain ⟨r', hr'⟩ : ∃ r', run recordedStep r executeRun = some r' := by
    obtain rfl := Option.some.inj hr
    exact ⟨_, rfl⟩
  obtain ⟨hch, hes, r'', hstep, hmem, hroom⟩ :
      r.state.broker.subscriptions.lookup (Instruction.callFunction "f").channel = some "0" ∧
      r'.history = r.history ++ [.sent "1" (.execute "t" (.callFunction "f" none))] ∧
      ∃ r'', recordedStep r' (.recv "1") = some r'' ∧
        .received "1" (.execute "t" (.callFunction "f" none)) ∈ r'.state.emits (.recv "1") ∧
        (r'.state.mailbox "0").length < Mailbox.limit := by
    obtain rfl := Option.some.inj hr
    obtain rfl := Option.some.inj hr'
    exact ⟨rfl, rfl, _, rfl, List.mem_cons_self .., by decide⟩
  have hown := (channel_ownership Broker.finishFromCbor r (reach_of_run hr)).2 _ _ hch r'
    (reach_of_run hr') _ hes
  rcases hown.2 (fun _ h => by simp at h) _ _ _ _ hstep hmem ⟨rfl, rfl⟩ with hput | ⟨-, hfull⟩
  · exact ⟨r, r', r'', hr, hr', hstep, hput⟩
  · exact absurd hfull (not_le.mpr hroom)

end Net

end Ailoy
