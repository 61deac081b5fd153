import Ailoy.Broker.Network

/-!
# What the broker keeps of a disconnected socket

A `disconnect` packet drops the sender's subscriptions and its entry in `sockets`, and leaves
`transactions` as it is. So the broker forgets the socket exactly when no transaction has it as its
requester at that moment (`IdleDisconnects`). Otherwise the entry stays, and later responses go to a
socket that the broker no longer serves. `forgets_iff_idleDisconnects` states this over whole runs,
in two forms: after a disconnect no table refers to the socket until it is accepted again, and every
socket that a table refers to is registered (`Broker.Closed`).
-/

namespace Ailoy

open Transition

namespace Broker

/-- Some table has an entry for the socket. -/
def Refers (b : Broker) (s : SocketName) : Prop :=
  s ∈ b.sockets ∨ (∃ ch, b.subscriptions.lookup ch = some s) ∨
    ∃ t, b.transactions.lookup t = some s

/-- Every subscriber and every requester is a registered socket. -/
structure Closed (b : Broker) : Prop where
  subscriber : ∀ ch s, b.subscriptions.lookup ch = some s → s ∈ b.sockets
  requester : ∀ t s, b.transactions.lookup t = some s → s ∈ b.sockets

/-- In closed tables, a socket that is not registered is not referred to at all. -/
theorem Closed.not_refers {b : Broker} (h : b.Closed) {s : SocketName} (hs : s ∉ b.sockets) :
    ¬ b.Refers s := by
  rintro (hin | ⟨ch, hch⟩ | ⟨t, ht⟩)
  · exact hs hin
  · exact hs (h.subscriber ch s hch)
  · exact hs (h.requester t s ht)

/-- The tables at the start are closed. -/
theorem closed_empty : Broker.empty.Closed :=
  ⟨fun ch s h => by simp [empty] at h, fun t s h => by simp [empty] at h⟩

/-- An accept only adds a socket. -/
theorem Closed.accept {b : Broker} (h : b.Closed) (s : SocketName) : (b.accept s).Closed :=
  ⟨fun ch s' hs => Finset.mem_insert_of_mem (h.subscriber ch s' hs),
    fun t s' hs => Finset.mem_insert_of_mem (h.requester t s' hs)⟩

/-- A handled packet keeps the tables closed, except for a `disconnect` of a socket that is the
requester of some transaction. -/
theorem Closed.handles {b : Broker} {s : SocketName} {msg : Packet} {r : Broker × Option Send}
    (h : b.Closed) (hs : s ∈ b.sockets) (hr : Handles b s msg r)
    (hidle : msg.ptype = .disconnect → ∀ t, b.transactions.lookup t ≠ some s) : r.1.Closed := by
  cases hr with
  | connect => exact h
  | ignored => exact h
  | @disconnect txId hp htx =>
    constructor
    · intro ch s' hch
      obtain ⟨hch, hne⟩ := (subscriptions_onDisconnect b s txId).mp hch
      exact Finset.mem_erase.mpr ⟨hne, h.subscriber ch s' hch⟩
    · intro t s' ht
      have hne : s' ≠ s := fun he => hidle hp t (he ▸ ht)
      exact Finset.mem_erase.mpr ⟨hne, h.requester t s' ht⟩
  | @subscribe txId channel hp htx hch =>
    constructor
    · intro ch s' hs'
      rw [subscriptions_onSubscribe] at hs'
      rw [sockets_onSubscribe]
      rcases Option.or_eq_some_iff.mp hs' with hold | ⟨-, hnew⟩
      · exact h.subscriber ch s' hold
      · split_ifs at hnew
        cases hnew
        exact hs
    · intro t s' ht
      simpa using h.requester t s' (by simpa using ht)
  | @unsubscribe txId channel hp htx hch =>
    constructor
    · intro ch s' hs'
      rw [subscriptions_onUnsubscribe] at hs'
      rw [sockets_onUnsubscribe]
      split_ifs at hs'
      exact h.subscriber ch s' hs'
    · intro t s' ht
      simpa using h.requester t s' (by simpa using ht)
  | @execute txId channel hp htx hch =>
    constructor
    · intro ch s' hs'
      simpa using h.subscriber ch s' (by simpa using hs')
    · intro t s' ht
      rw [transactions_onExecute] at ht
      rw [sockets_onExecute]
      split_ifs at ht with hnew
      · cases ht
        exact hs
      · exact h.requester t s' ht
  | @respondExecute txId finish hp htx hfin =>
    constructor
    · intro ch s' hs'
      simpa using h.subscriber ch s' (by simpa using hs')
    · intro t s' ht
      rw [transactions_onRespondExecute] at ht
      rw [sockets_onRespondExecute]
      split_ifs at ht
      exact h.requester t s' ht

end Broker

namespace Net

/-- The broker's next iteration for `s` handles a `disconnect` packet. -/
def Disconnects (n : Net) (s : SocketName) : Prop :=
  s ∈ n.broker.sockets ∧ ∃ msg rest, n.inbox s = msg :: rest ∧ msg.ptype = .disconnect

/-- The condition under which the broker forgets a socket: a `disconnect` packet is handled when no
transaction has its sender as the requester. -/
def IdleDisconnects (n : Net) : NetAct → Prop
  | .recv s => n.Disconnects s → ∀ t, n.broker.transactions.lookup t ≠ some s
  | _ => True

/-- In the run of `as` from the start, no table refers to a disconnected socket until it is accepted
again. -/
def Forgets (as : List NetAct) : Prop :=
  ∀ pre mid post s n₁ n₂ n₃, as = pre ++ .recv s :: (mid ++ post) →
    run step .empty pre = some n₁ → n₁.Disconnects s → n₁.step (.recv s) = some n₂ →
    run step n₂ mid = some n₃ → .accept s ∉ mid → ¬ n₃.broker.Refers s

/-- A step that meets the condition keeps the tables closed. -/
theorem closed_step {n n' : Net} {a : NetAct} (h : n.broker.Closed) (ha : n.IdleDisconnects a)
    (hs : n.step a = some n') : n'.broker.Closed := by
  rcases step_broker hs with hb | ⟨s, rfl, -, hb⟩ | ⟨s, msg, rest, send, rfl, hreg, hq, hh⟩
  · rw [hb]
    exact h
  · rw [hb]
    exact h.accept s
  · exact h.handles hreg hh fun hp => ha ⟨hreg, msg, rest, hq, hp⟩

/-- After a `disconnect` the sender is not registered, and the transactions are those before. -/
theorem broker_of_disconnects {n n' : Net} {s : SocketName} (hd : n.Disconnects s)
    (hs : n.step (.recv s) = some n') :
    s ∉ n'.broker.sockets ∧ n'.broker.transactions = n.broker.transactions := by
  obtain ⟨hreg, msg, rest, hq, hp⟩ := hd
  rcases recv_cases hs with ⟨-, hno | hno⟩ | ⟨msg', rest', broker, send, -, hq', hh, rfl⟩
  · exact absurd hreg hno
  · simp [hq] at hno
  · obtain ⟨rfl, rfl⟩ : msg = msg' ∧ rest = rest' := by simpa using hq.symm.trans hq'
    generalize hr : (broker, send) = r at hh
    cases Broker.handles_of_handle hh with
    | disconnect =>
      cases hr
      simp
    | connect hp' => simp [hp] at hp'
    | subscribe hp' => simp [hp] at hp'
    | unsubscribe hp' => simp [hp] at hp'
    | execute hp' => simp [hp] at hp'
    | respondExecute hp' => simp [hp] at hp'
    | ignored hp' => simp [hp] at hp'

/-- A step that ends in closed tables has met the condition. -/
theorem idleDisconnects_of_closed {n n' : Net} {a : NetAct} (hs : n.step a = some n')
    (h : n'.broker.Closed) : n.IdleDisconnects a := by
  cases a with
  | recv s =>
    intro hd t ht
    obtain ⟨hno, htx⟩ := broker_of_disconnects hd hs
    exact hno (h.requester t s (by rw [htx]; exact ht))
  | _ => trivial

/-- A socket that is not registered stays so until it is accepted. -/
theorem not_mem_sockets_of_run {s : SocketName} {as : List NetAct} {n n' : Net}
    (hr : run step n as = some n') (hs : s ∉ n.broker.sockets) (has : .accept s ∉ as) :
    s ∉ n'.broker.sockets := by
  induction as generalizing n with
  | nil =>
    obtain rfl : n = n' := by simpa using hr
    exact hs
  | cons a as ih =>
    rw [run_cons] at hr
    obtain ⟨n₁, h₁, hr⟩ := Option.bind_eq_some_iff.mp hr
    refine ih hr ?_ fun h => has (List.mem_cons_of_mem a h)
    rcases step_broker h₁ with hb | ⟨s', rfl, -, hb⟩ | ⟨s', msg, rest, send, rfl, hreg, hq, hh⟩
    · rw [hb]
      exact hs
    · rw [hb]
      intro hin
      rcases Finset.mem_insert.mp hin with rfl | hin
      · exact has (List.mem_cons_self ..)
      · exact hs hin
    · -- The handling of a packet only ever removes a socket from the set.
      generalize hr : (n₁.broker, send) = r at hh
      have hsub : r.1.sockets ⊆ n.broker.sockets := by
        cases hh with
        | disconnect => exact Finset.erase_subset ..
        | _ => simp
      rw [← hr] at hsub
      exact fun hin => hs (hsub hin)

/-- In a run whose steps meet the condition, every state reached has closed tables. -/
theorem closed_of_reachVia {n : Net} (h : ReachVia step IdleDisconnects .empty n) :
    n.broker.Closed :=
  h.invariant (P := fun n => n.broker.Closed) Broker.closed_empty
    fun _ _ _ _ hn ha hs => closed_step hn ha hs

/-- A run forgets the disconnected sockets exactly when its steps meet the condition. -/
theorem forgets_iff {as : List NetAct} (h : run step .empty as ≠ none) :
    Forgets as ↔ Meets step IdleDisconnects .empty as := by
  constructor
  · rw [meets_iff]
    intro hf pre a post n₁ has h₁
    cases a with
    | recv s =>
      intro hd t ht
      cases h₂ : n₁.step (.recv s) with
      | none => simp [has, run_append, h₁, h₂] at h
      | some n₂ =>
        -- The step itself, with nothing after it: its state already refers to the socket.
        refine hf pre [] post s n₁ n₂ n₂ has h₁ hd h₂ rfl (by simp) (.inr (.inr ⟨t, ?_⟩))
        rw [(broker_of_disconnects hd h₂).2]
        exact ht
    | _ => trivial
  · rintro hm pre mid post s n₁ n₂ n₃ rfl h₁ hd h₂ h₃ hmid
    have hpre : Meets step IdleDisconnects .empty (pre ++ .recv s :: mid) := by
      rw [meets_iff] at hm ⊢
      intro p a q n' hsplit
      exact hm p a (q ++ post) n' (by simpa using congrArg (· ++ post) hsplit)
    have hclosed : n₃.broker.Closed := by
      refine closed_of_reachVia (ReachVia.init.of_run hpre ?_)
      rw [run_append, h₁, Option.bind_some, run_cons, h₂, Option.bind_some, h₃]
    exact hclosed.not_refers
      (not_mem_sockets_of_run h₃ (broker_of_disconnects hd h₂).1 hmid)

/-- In a run of the broker, no table refers to a disconnected socket until it is accepted again, and
every socket that a table refers to is registered in every state, exactly when every `disconnect`
packet of the run is handled while no transaction has its sender as the requester. -/
theorem no_reference_after_disconnect_iff (as : List NetAct) (h : run step .empty as ≠ none) :
    (Forgets as ↔ Meets step IdleDisconnects .empty as) ∧
      (Along step (fun n => n.broker.Closed) .empty as ↔
        Meets step IdleDisconnects .empty as) := by
  refine ⟨forgets_iff h, ?_, ?_⟩
  · exact Along.meets (fun n a n' _ hs hn' => idleDisconnects_of_closed hs hn') h
  · exact Meets.along (fun n hn => closed_of_reachVia hn) .init

/-- A client connects, asks for nothing, and disconnects. -/
def idleRun : List NetAct :=
  [.accept "1", .send "1" (.connect "c"), .recv "1", .take "1", .send "1" (.disconnect "d"),
    .recv "1"]

theorem no_reference_after_idle_disconnect :
    run step .empty idleRun ≠ none ∧
      (Forgets idleRun ↔ Meets step IdleDisconnects .empty idleRun) ∧
      (Along step (fun n => n.broker.Closed) .empty idleRun ↔
        Meets step IdleDisconnects .empty idleRun) := by
  have h : run step .empty idleRun ≠ none := by
    intro h
    have hsome : (run step .empty idleRun).isSome = true := by decide
    simp [h] at hsome
  exact ⟨h, no_reference_after_disconnect_iff idleRun h⟩

/-- A client disconnects while its call of a function of the peer `0` is still unanswered. -/
def leakingRun : List NetAct :=
  [.accept "0", .send "0" (.subscribe "s" (.callFunction "f")), .recv "0", .accept "1",
    .send "1" (.execute "t" (.callFunction "f" none)), .recv "1", .send "1" (.disconnect "d"),
    .recv "1"]

/-- After `leakingRun` the disconnected socket is still the requester of its transaction. -/
theorem leakingRun_not_closed : ∃ n, Reach step .empty n ∧ ¬ n.broker.Closed := by
  have hend : (run step .empty leakingRun).map
      (fun n => (n.broker.transactions.lookup "t", decide ("1" ∈ n.broker.sockets))) =
        some (some "1", false) := by decide
  obtain ⟨n, hn, hn'⟩ := Option.map_eq_some_iff.mp hend
  obtain ⟨ht, hs⟩ := Prod.mk.inj hn'
  exact ⟨n, reach_of_run hn, fun hc => of_decide_eq_false hs (hc.requester "t" "1" ht)⟩

end Net

end Ailoy
