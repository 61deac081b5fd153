import Ailoy.Core.Mailbox
import Ailoy.Lib.Fifo
import Mathlib.Data.Finset.Basic

/-!
# The signals that the broker's loop wakes up by

The mailboxes on the broker's side and the signals of its monitor (`core/src/inproc_socket.cpp`,
`core/src/thread.cpp`, `broker/src/broker.cpp`). A thread puts its mail and then a signal, and the
loop reads one mail for each signal. `notify` drops the signal where no monitor is set. That is so
between the constructor of the acceptor and its `set_monitor`, and between `accept`, which lets the
client send, and `set_monitor` of the accepted socket. `no_lost_wakeup` says that the signals cover
the mail in every run without a signal in these windows, and that mail that is covered is taken.

The loop takes a signal and the mail for it in one step: no other thread can tell the two apart.
-/

namespace Ailoy

open Transition

/-- `signal_t` in the broker's monitor. -/
inductive BrokerSignal
  | accept
  /-- The socket `who` has mail. -/
  | recv (who : ℕ)
  | stop
  deriving DecidableEq

/-- Where a client thread is. -/
inductive ClientPlace
  | start
  /-- In `connect`, in the wait list or behind its timeout. -/
  | waiting
  /-- In `connect` with the dialer's lock, before the signal; whether the mailbox took the socket. -/
  | connecting (accepted : Bool)
  /-- `connect` has returned true. -/
  | connected
  /-- `connect` has returned false. -/
  | failed

/-- Where the broker's thread is. -/
inductive BrokerPlace (σ : Type*)
  | start
  /-- The acceptor is registered. -/
  | constructed
  /-- In `on_monitor_set`, with the sockets that are left of the range. -/
  | offering (rest : List σ)
  /-- In `request_accepting` of `on_monitor_set`, before the signal. -/
  | offered (rest : List σ)
  /-- In the loop, before the next signal. -/
  | loop
  /-- In `accept` with the new socket `n`, before the client's socket is attached to it. -/
  | accepting (c : σ) (n : ℕ)
  /-- In `accept`, behind that. -/
  | attached (n : ℕ)
  /-- `accept` has returned. -/
  | returned (n : ℕ)
  /-- The monitor of the accepted socket is set. -/
  | monitored (n : ℕ)
  /-- The loop is left. -/
  | leaving

/-- What the loop makes of a message. -/
inductive Handling
  | keep
  /-- The socket is removed from the table. -/
  | disconnect
  /-- An exception leaves the loop. -/
  | throw

/-- The clients `σ` of a url, and the broker's thread with the sockets that it has made, in the order
of their names. -/
structure Wakeups (σ α : Type*) where
  broker : BrokerPlace σ
  /-- The client that holds the lock of the dialer between two steps. -/
  lock : Option σ
  /-- The wait list `dialer.connections`. -/
  connections : List σ
  /-- The acceptor's mailbox. -/
  mailbox : List σ
  /-- The queue of the broker's monitor. -/
  signals : List BrokerSignal
  /-- The names in `sockets`. -/
  table : Finset ℕ
  /-- Whether a socket's monitor is set. -/
  monitored : ℕ → Bool
  /-- Whether a socket exists. -/
  alive : ℕ → Bool
  /-- The mailbox of a socket. -/
  inbox : ℕ → List α
  /-- The calls of `send` to a socket that have put their message and not the signal. -/
  sending : ℕ → ℕ
  nextName : ℕ
  client : σ → ClientPlace
  /-- The socket that a client's socket is attached to. -/
  peer : σ → Option ℕ

/-- A step of a thread. -/
inductive WakeAct (σ α : Type*)
  /-- The broker makes the acceptor. -/
  | construct
  /-- The broker sets the acceptor's monitor. -/
  | setMonitor
  /-- `on_monitor_set` puts the next socket of the wait list into the mailbox. -/
  | offer
  /-- `on_monitor_set` puts the signal. -/
  | offerNotify
  /-- `on_monitor_set` erases its range from the wait list. -/
  | release
  /-- The loop takes a signal and the mail for it. -/
  | take
  /-- `accept` attaches the client's socket. -/
  | attach
  /-- `accept` returns. -/
  | finishAccept
  /-- The loop sets the monitor of the accepted socket. -/
  | watch
  /-- The loop puts the accepted socket into the table. -/
  | keep
  /-- `broker_start` returns, and its objects are destroyed. -/
  | leave
  /-- The last reference to a socket goes. -/
  | drop (n : ℕ)
  /-- `broker_stop` is called. -/
  | requestStop
  /-- The client calls `connect`. -/
  | dial (c : σ)
  /-- The client in `connect` puts the signal. -/
  | dialNotify
  /-- The client finds that the wait list has no socket for the url. -/
  | wake (c : σ)
  /-- The client's time is over. -/
  | timeout (c : σ)
  /-- The client puts a message into the mailbox of its peer. -/
  | send (c : σ) (msg : α)
  /-- A client in `send` puts the signal for the socket. -/
  | sendNotify (n : ℕ)

variable {σ α : Type*}

namespace BrokerPlace

/-- The acceptor is registered in the dialer. -/
def isRegistered : BrokerPlace σ → Bool
  | .start => false
  | _ => true

/-- The acceptor has a monitor. -/
def hasMonitor : BrokerPlace σ → Bool
  | .start | .constructed => false
  | _ => true

/-- The stop signal has a monitor. -/
def hasStop : BrokerPlace σ → Bool
  | .start | .constructed | .offering _ | .offered _ => false
  | _ => true

/-- A socket of the wait list is in the mailbox, and its signal is not put yet. -/
def isOffered : BrokerPlace σ → Bool
  | .offered _ => true
  | _ => false

/-- The broker is in `accept`. -/
def isAccepting : BrokerPlace σ → Bool
  | .accepting _ _ | .attached _ => true
  | _ => false

/-- The accepted socket on its way into the table. -/
def hand : BrokerPlace σ → Option ℕ
  | .accepting _ n | .attached n | .returned n | .monitored n => some n
  | _ => none

end BrokerPlace

namespace Wakeups

/-- No thread has started. -/
def start : Wakeups σ α where
  broker := .start
  lock := none
  connections := []
  mailbox := []
  signals := []
  table := ∅
  monitored _ := false
  alive _ := false
  inbox _ := []
  sending _ := 0
  nextName := 0
  client _ := .start
  peer _ := none

/-- The mailbox of the acceptor after `request_accepting`, and whether it took the socket. -/
def requestAccepting (s : Wakeups σ α) (c : σ) : List σ × Bool :=
  match Mailbox.set s.mailbox c with
  | none => (s.mailbox, false)
  | some mailbox => (mailbox, true)

/-- The broker holds the socket, in its table or on the way there. -/
def Tracked (s : Wakeups σ α) (n : ℕ) : Prop := n ∈ s.table ∨ s.broker.hand = some n

instance (s : Wakeups σ α) (n : ℕ) : Decidable (s.Tracked n) :=
  inferInstanceAs (Decidable (_ ∨ _))

section Step

variable (handle : α → Handling)

/-- What the loop does with a message of the socket `n`, which it takes out of the mailbox. -/
def onMessage (s : Wakeups σ α) (n : ℕ) (msg : α) (rest : List α) : Wakeups σ α :=
  let s := { s with inbox := Function.update s.inbox n rest }
  match handle msg with
  | .keep => s
  | .disconnect => { s with table := s.table.erase n }
  | .throw => { s with broker := .leaving }

/-- What the loop does with a signal, which it has taken out of the queue. -/
def onSignal (s : Wakeups σ α) : BrokerSignal → Wakeups σ α
  | .stop => { s with broker := .leaving }
  | .accept =>
    match Mailbox.get s.mailbox with
    | none => s
    | some (c, mailbox) =>
      { s with
        mailbox
        broker := .accepting c s.nextName
        nextName := s.nextName + 1
        inbox := Function.update s.inbox s.nextName []
        alive := Function.update s.alive s.nextName true
        monitored := Function.update s.monitored s.nextName false }
  | .recv n =>
    if n ∈ s.table then
      match Mailbox.get (s.inbox n) with
      | none => s
      | some (msg, rest) => s.onMessage handle n msg rest
    else s

variable [DecidableEq σ]

/-- One step. -/
def step (s : Wakeups σ α) : WakeAct σ α → Option (Wakeups σ α)
  | .construct =>
    match s.broker, s.lock with
    | .start, none => some { s with broker := .constructed }
    | _, _ => none
  | .setMonitor =>
    match s.broker with
    | .constructed => some { s with broker := .offering s.connections }
    | _ => none
  | .offer =>
    match s.broker with
    | .offering (c :: rest) =>
      some { s with broker := .offered rest, mailbox := (s.requestAccepting c).1 }
    | _ => none
  | .offerNotify =>
    match s.broker with
    | .offered rest => some { s with broker := .offering rest, signals := s.signals ++ [.accept] }
    | _ => none
  | .release =>
    match s.broker with
    | .offering [] => some { s with broker := .loop, connections := [] }
    | _ => none
  | .take =>
    match s.broker, s.signals with
    | .loop, sig :: rest => some (onSignal handle { s with signals := rest } sig)
    | _, _ => none
  | .attach =>
    match s.broker with
    | .accepting c n =>
      some { s with broker := .attached n, peer := Function.update s.peer c (some n) }
    | _ => none
  | .finishAccept =>
    match s.broker with
    | .attached n => some { s with broker := .returned n }
    | _ => none
  | .watch =>
    match s.broker with
    | .returned n =>
      some { s with broker := .monitored n, monitored := Function.update s.monitored n true }
    | _ => none
  | .keep =>
    match s.broker with
    | .monitored n => some { s with broker := .loop, table := insert n s.table }
    | _ => none
  | .leave =>
    match s.broker, s.lock with
    | .leaving, none =>
      some { s with
        broker := .start
        mailbox := []
        signals := []
        table := ∅
        monitored := fun _ => false
        alive := fun _ => false }
    | _, _ => none
  | .drop n =>
    if s.Tracked n then none else some { s with alive := Function.update s.alive n false }
  | .requestStop =>
    if s.broker.hasStop then some { s with signals := s.signals ++ [.stop] } else some s
  | .dial c =>
    match s.client c, s.lock with
    | .start, none =>
      if s.broker.isRegistered then
        some { s with
          lock := some c
          mailbox := (s.requestAccepting c).1
          client := Function.update s.client c (.connecting (s.requestAccepting c).2) }
      else
        some { s with
          connections := s.connections ++ [c]
          client := Function.update s.client c .waiting }
    | _, _ => none
  | .dialNotify =>
    match s.lock with
    | none => none
    | some c =>
      match s.client c with
      | .connecting accepted =>
        some { s with
          lock := none
          signals := if s.broker.hasMonitor then s.signals ++ [.accept] else s.signals
          client := Function.update s.client c (if accepted then .connected else .failed) }
      | _ => none
  | .wake c =>
    match s.client c, s.lock, s.connections with
    | .waiting, none, [] => some { s with client := Function.update s.client c .connected }
    | _, _, _ => none
  | .timeout c =>
    match s.client c, s.lock, s.connections with
    | .waiting, none, _ :: _ =>
      some { s with
        connections := s.connections.filter (· ≠ c)
        client := Function.update s.client c .failed }
    | _, _, _ => none
  | .send c msg =>
    match s.client c, s.peer c with
    | .connected, some n =>
      match s.alive n, Mailbox.set (s.inbox n) msg with
      | true, some q =>
        some { s with
          inbox := Function.update s.inbox n q
          sending := Function.update s.sending n (s.sending n + 1) }
      | _, _ => some s
    | _, _ => none
  | .sendNotify n =>
    if 0 < s.sending n then
      some { s with
        signals := if s.alive n && s.monitored n then s.signals ++ [.recv n] else s.signals
        sending := Function.update s.sending n (s.sending n - 1) }
    else none

end Step

/-! ## The properties -/

/-- No thread is in `connect`, `send`, `accept`, or `request_accepting`. -/
structure Quiet (s : Wakeups σ α) : Prop where
  waiting : ∀ c, s.client c ≠ .waiting
  connecting : ∀ c accepted, s.client c ≠ .connecting accepted
  sending : ∀ n, s.sending n = 0
  accepting : s.broker.isAccepting = false
  offered : s.broker.isOffered = false

/-- There are as many signals as there is mail: for the sockets that wait for the acceptor, and for
the messages of each socket of the table. -/
structure Covered (s : Wakeups σ α) : Prop where
  accepts : s.mailbox.length + s.connections.length ≤ s.signals.count .accept
  reads : ∀ n ∈ s.table, (s.inbox n).length ≤ s.signals.count (.recv n)

/-- A signal finds a monitor: that of a socket in the acceptor's mailbox, and that of a message for
the socket that the broker is accepting. -/
def FindsMonitor (s : Wakeups σ α) : WakeAct σ α → Prop
  | .dialNotify => s.broker.hasMonitor = true
  | .sendNotify n => s.broker.hand = some n → s.monitored n = true
  | _ => True

instance (s : Wakeups σ α) : (a : WakeAct σ α) → Decidable (s.FindsMonitor a)
  | .dialNotify => inferInstanceAs (Decidable (s.broker.hasMonitor = true))
  | .sendNotify n =>
    inferInstanceAs (Decidable (s.broker.hand = some n → s.monitored n = true))
  | .construct | .setMonitor | .offer | .offerNotify | .release | .take | .attach | .finishAccept
  | .watch | .keep | .leave | .drop _ | .requestStop | .dial _ | .wake _ | .timeout _
  | .send _ _ => .isTrue trivial

/-- The action that takes a signal. -/
def takes : WakeAct σ α → Bool
  | .take => true
  | _ => false

/-! ## What a step does -/

variable {handle : α → Handling} [DecidableEq σ] {s s' : Wakeups σ α} {a : WakeAct σ α}

/-- All that a step can do. -/
inductive Moves (s : Wakeups σ α) : WakeAct σ α → Wakeups σ α → Prop
  /-- The broker goes on without mail and signals. -/
  | proceeds {a : WakeAct σ α} {broker : BrokerPlace σ} {connections : List σ}
      {peer : σ → Option ℕ} : takes a = false → broker.isOffered = s.broker.isOffered →
      broker.hand = s.broker.hand → (∀ n, broker ≠ .monitored n) →
      (∀ c ∈ connections, c ∈ s.connections) →
      Moves s a { s with broker, connections, peer }
  | offers {c : σ} {rest : List σ} : s.broker = .offering (c :: rest) →
      Moves s .offer { s with broker := .offered rest, mailbox := (s.requestAccepting c).1 }
  | offerNotifies {rest : List σ} : s.broker = .offered rest →
      Moves s .offerNotify
        { s with broker := .offering rest, signals := s.signals ++ [.accept] }
  | takesStop {rest : List BrokerSignal} : s.broker = .loop → s.signals = .stop :: rest →
      Moves s .take { s with signals := rest, broker := .leaving }
  /-- The signal of a socket that is not in the mailbox any more, if it ever was. -/
  | findsNone {rest : List BrokerSignal} : s.broker = .loop → s.signals = .accept :: rest →
      s.mailbox = [] → Moves s .take { s with signals := rest }
  | accepts {rest : List BrokerSignal} {c : σ} {mailbox : List σ} : s.broker = .loop →
      s.signals = .accept :: rest → s.mailbox = c :: mailbox →
      Moves s .take { s with
        signals := rest
        mailbox
        broker := .accepting c s.nextName
        nextName := s.nextName + 1
        inbox := Function.update s.inbox s.nextName []
        alive := Function.update s.alive s.nextName true
        monitored := Function.update s.monitored s.nextName false }
  /-- The signal of a message that is not there, or of a socket that is gone. -/
  | readsNone {rest : List BrokerSignal} {n : ℕ} : s.broker = .loop →
      s.signals = .recv n :: rest → (n ∈ s.table → s.inbox n = []) →
      Moves s .take { s with signals := rest }
  | reads {rest : List BrokerSignal} {n : ℕ} {msg : α} {q : List α} {broker : BrokerPlace σ}
      {table : Finset ℕ} : s.broker = .loop → s.signals = .recv n :: rest → n ∈ s.table →
      s.inbox n = msg :: q → broker = .loop ∨ broker = .leaving → table ⊆ s.table →
      Moves s .take
        { s with signals := rest, inbox := Function.update s.inbox n q, broker, table }
  | watches {n : ℕ} : s.broker = .returned n →
      Moves s .watch
        { s with broker := .monitored n, monitored := Function.update s.monitored n true }
  | keeps {n : ℕ} : s.broker = .monitored n →
      Moves s .keep { s with broker := .loop, table := insert n s.table }
  | leaves : s.broker = .leaving → s.lock = none →
      Moves s .leave { s with
        broker := .start
        mailbox := []
        signals := []
        table := ∅
        monitored := fun _ => false
        alive := fun _ => false }
  | drops {n : ℕ} : ¬ s.Tracked n →
      Moves s (.drop n) { s with alive := Function.update s.alive n false }
  | requestsStop : Moves s .requestStop { s with signals := s.signals ++ [.stop] }
  | dials {c : σ} : s.lock = none → s.client c = .start →
      Moves s (.dial c) { s with
        lock := some c
        mailbox := (s.requestAccepting c).1
        client := Function.update s.client c (.connecting (s.requestAccepting c).2) }
  | waits {c : σ} : s.lock = none → s.client c = .start →
      Moves s (.dial c) { s with
        connections := s.connections ++ [c]
        client := Function.update s.client c .waiting }
  | dialNotifies {c : σ} {place : ClientPlace} : s.lock = some c →
      Moves s .dialNotify { s with
        lock := none
        signals := if s.broker.hasMonitor then s.signals ++ [.accept] else s.signals
        client := Function.update s.client c place }
  | wakes {c : σ} : s.lock = none → s.connections = [] →
      Moves s (.wake c) { s with client := Function.update s.client c .connected }
  | timesOut {c : σ} : s.lock = none →
      Moves s (.timeout c) { s with
        connections := s.connections.filter (· ≠ c)
        client := Function.update s.client c .failed }
  | sends {c : σ} {n : ℕ} {msg : α} :
      Moves s (.send c msg) { s with
        inbox := Function.update s.inbox n (s.inbox n ++ [msg])
        sending := Function.update s.sending n (s.sending n + 1) }
  | sendNotifies {n : ℕ} : 0 < s.sending n →
      Moves s (.sendNotify n) { s with
        signals := if s.alive n && s.monitored n then s.signals ++ [.recv n] else s.signals
        sending := Function.update s.sending n (s.sending n - 1) }
  | idle {a : WakeAct σ α} : takes a = false → Moves s a s

omit [DecidableEq σ] in
/-- What the loop does with a signal. -/
theorem moves_of_signal {sig : BrokerSignal} {rest : List BrokerSignal} (hb : s.broker = .loop)
    (hq : s.signals = sig :: rest) [DecidableEq σ] :
    Moves s .take (onSignal handle { s with signals := rest } sig) := by
  cases sig with
  | stop => exact .takesStop hb hq
  | accept =>
    by_cases hm : s.mailbox = []
    · have hsame : onSignal handle { s with signals := rest } .accept =
          { s with signals := rest } := by
        simp only [onSignal, hm, Mailbox.get]
      rw [hsame]
      exact .findsNone hb hq hm
    · obtain ⟨c, mailbox, hm⟩ := List.exists_cons_of_ne_nil hm
      simp only [onSignal, hm, Mailbox.get]
      exact .accepts hb hq hm
  | recv n =>
    by_cases hn : n ∈ s.table
    · by_cases hin : s.inbox n = []
      · have hsame : onSignal handle { s with signals := rest } (.recv n) =
            { s with signals := rest } := by
          simp only [onSignal, hn, if_true, hin, Mailbox.get]
        rw [hsame]
        exact .readsNone hb hq fun _ => hin
      · obtain ⟨msg, q, hin⟩ := List.exists_cons_of_ne_nil hin
        have hread : onSignal handle { s with signals := rest } (.recv n) =
            onMessage handle { s with signals := rest } n msg q := by
          simp only [onSignal, hn, if_true, hin, Mailbox.get]
        rw [hread]
        unfold onMessage
        cases handle msg with
        | keep => exact .reads hb hq hn hin (.inl hb) (Finset.Subset.refl s.table)
        | disconnect => exact .reads hb hq hn hin (.inl hb) (Finset.erase_subset n s.table)
        | throw => exact .reads hb hq hn hin (.inr rfl) (Finset.Subset.refl s.table)
    · have hsame : onSignal handle { s with signals := rest } (.recv n) =
          { s with signals := rest } := if_neg hn
      rw [hsame]
      exact .readsNone hb hq fun h => absurd h hn

/-- Every step does one of these. -/
theorem moves_of_step (h : step handle s a = some s') : Moves s a s' := by
  cases a with
  | construct =>
    simp only [step] at h
    split at h
    · next hb hl =>
      obtain rfl := Option.some.inj h
      exact .proceeds rfl (by rw [hb]; rfl) (by rw [hb]; rfl) nofun fun _ => id
    · cases h
  | setMonitor =>
    simp only [step] at h
    split at h
    · next hb =>
      obtain rfl := Option.some.inj h
      exact .proceeds rfl (by rw [hb]; rfl) (by rw [hb]; rfl) nofun fun _ => id
    · cases h
  | offer =>
    simp only [step] at h
    split at h
    · next c rest hb =>
      obtain rfl := Option.some.inj h
      exact .offers hb
    · cases h
  | offerNotify =>
    simp only [step] at h
    split at h
    · next rest hb =>
      obtain rfl := Option.some.inj h
      exact .offerNotifies hb
    · cases h
  | release =>
    simp only [step] at h
    split at h
    · next hb =>
      obtain rfl := Option.some.inj h
      exact .proceeds rfl (by rw [hb]; rfl) (by rw [hb]; rfl) nofun nofun
    · cases h
  | take =>
    simp only [step] at h
    split at h
    · next sig rest hb hq =>
      obtain rfl := Option.some.inj h
      exact moves_of_signal hb hq
    · cases h
  | attach =>
    simp only [step] at h
    split at h
    · next c n hb =>
      obtain rfl := Option.some.inj h
      exact .proceeds rfl (by rw [hb]; rfl) (by rw [hb]; rfl) nofun fun _ => id
    · cases h
  | finishAccept =>
    simp only [step] at h
    split at h
    · next n hb =>
      obtain rfl := Option.some.inj h
      exact .proceeds rfl (by rw [hb]; rfl) (by rw [hb]; rfl) nofun fun _ => id
    · cases h
  | watch =>
    simp only [step] at h
    split at h
    · next n hb =>
      obtain rfl := Option.some.inj h
      exact .watches hb
    · cases h
  | keep =>
    simp only [step] at h
    split at h
    · next n hb =>
      obtain rfl := Option.some.inj h
      exact .keeps hb
    · cases h
  | leave =>
    simp only [step] at h
    split at h
    · next hb hl =>
      obtain rfl := Option.some.inj h
      exact .leaves hb hl
    · cases h
  | drop n =>
    simp only [step] at h
    split at h
    · cases h
    · next hn =>
      obtain rfl := Option.some.inj h
      exact .drops hn
  | requestStop =>
    simp only [step] at h
    split at h
    · obtain rfl := Option.some.inj h
      exact .requestsStop
    · obtain rfl := Option.some.inj h
      exact .idle rfl
  | dial c =>
    simp only [step] at h
    split at h
    · next hc hl =>
      split at h
      · obtain rfl := Option.some.inj h
        exact .dials hl hc
      · obtain rfl := Option.some.inj h
        exact .waits hl hc
    · cases h
  | dialNotify =>
    simp only [step] at h
    split at h
    · cases h
    · next c hl =>
      split at h
      · obtain rfl := Option.some.inj h
        exact .dialNotifies hl
      · cases h
  | wake c =>
    simp only [step] at h
    split at h
    · next hc hl hconn =>
      obtain rfl := Option.some.inj h
      exact .wakes hl hconn
    · cases h
  | timeout c =>
    simp only [step] at h
    split at h
    · next hc hl hconn =>
      obtain rfl := Option.some.inj h
      exact .timesOut hl
    · cases h
  | send c msg =>
    simp only [step] at h
    split at h
    · next n hc hp =>
      split at h
      · next q halive hset =>
        obtain rfl := Option.some.inj h
        obtain ⟨-, hq⟩ := Option.ite_none_left_eq_some.mp hset
        obtain rfl := Option.some.inj hq
        exact .sends
      · obtain rfl := Option.some.inj h
        exact .idle rfl
    · cases h
  | sendNotify n =>
    obtain ⟨hpos, rfl⟩ := Option.ite_some_none_eq_some.mp h
    exact .sendNotifies hpos

/-! ## The sockets that wait for the acceptor -/

/-- The mail of the acceptor without a signal: that of the client with the lock, and that of
`on_monitor_set`. -/
def unsignalled (s : Wakeups σ α) : ℕ := s.lock.toList.length + s.broker.isOffered.toNat

/-- The accounts of the acceptor's mailbox and of the wait list. -/
structure AcceptsAccounted (s : Wakeups σ α) : Prop where
  accepts : s.mailbox.length ≤ s.signals.count .accept + s.unsignalled
  waits : ∀ c ∈ s.connections, s.client c = .waiting
  holds : ∀ c, s.lock = some c → ∃ accepted, s.client c = .connecting accepted

omit [DecidableEq σ] in
theorem acceptsAccounted_start : (start : Wakeups σ α).AcceptsAccounted where
  accepts := Nat.zero_le _
  waits c hc := by cases hc
  holds c hc := by cases hc

omit [DecidableEq σ] in
/-- A step that leaves the acceptor and its clients alone keeps the accounts. -/
theorem AcceptsAccounted.of_frame (hi : s.AcceptsAccounted) (hmailbox : s'.mailbox = s.mailbox)
    (hcount : s'.signals.count .accept = s.signals.count .accept) (hlock : s'.lock = s.lock)
    (hoffered : s'.broker.isOffered = s.broker.isOffered)
    (hconn : ∀ c ∈ s'.connections, c ∈ s.connections) (hclient : s'.client = s.client) :
    s'.AcceptsAccounted := by
  refine ⟨?_, fun c hc => ?_, fun c hc => ?_⟩
  · have hpending : s'.unsignalled = s.unsignalled := by
      unfold unsignalled
      rw [hlock, hoffered]
    rw [hmailbox, hcount, hpending]
    exact hi.accepts
  · rw [hclient]
    exact hi.waits c (hconn c hc)
  · rw [hclient]
    exact hi.holds c (hlock ▸ hc)

omit [DecidableEq σ] in
theorem length_requestAccepting (s : Wakeups σ α) (c : σ) :
    (s.requestAccepting c).1.length ≤ s.mailbox.length + 1 := by
  unfold requestAccepting
  split
  · exact Nat.le_succ _
  · next q hset =>
    obtain ⟨-, hq⟩ := Option.ite_none_left_eq_some.mp hset
    rw [← Option.some.inj hq, List.length_append]
    exact Nat.le_refl _

/-- A client that is not in the wait list may change its place. -/
theorem AcceptsAccounted.waits_update (hi : s.AcceptsAccounted) {c : σ} {place : ClientPlace}
    (hc : s.client c ≠ .waiting) :
    ∀ x ∈ s.connections, Function.update s.client c place x = .waiting := by
  intro x hx
  have hwaits := hi.waits x hx
  rw [Function.update_of_ne]
  · exact hwaits
  · rintro rfl
    exact hc hwaits

/-- One step keeps the accounts of the acceptor, when a dialer's signal finds the monitor. -/
theorem AcceptsAccounted.step (hi : s.AcceptsAccounted) (hok : s.FindsMonitor a)
    (h : step handle s a = some s') : s'.AcceptsAccounted := by
  have hold := hi.accepts
  cases moves_of_step h with
  | proceeds _ hoffered _ _ hconn => exact hi.of_frame rfl rfl rfl hoffered hconn rfl
  | @offers c rest hb =>
    refine ⟨?_, hi.waits, hi.holds⟩
    have hlen := length_requestAccepting s c
    unfold unsignalled at hold ⊢
    rw [hb] at hold
    exact hlen.trans (Nat.succ_le_succ hold)
  | @offerNotifies rest hb =>
    refine ⟨?_, hi.waits, hi.holds⟩
    unfold unsignalled at hold ⊢
    rw [hb] at hold
    dsimp only [BrokerPlace.isOffered, Bool.toNat_true, Bool.toNat_false] at hold ⊢
    rw [List.count_append, List.count_singleton_self]
    omega
  | takesStop hb hq =>
    refine hi.of_frame rfl ?_ rfl (by rw [hb]; rfl) (fun _ => id) rfl
    rw [hq]
    exact (List.count_cons_of_ne (by decide)).symm
  | findsNone hb hq hm =>
    refine ⟨?_, hi.waits, hi.holds⟩
    dsimp only
    rw [hm]
    exact Nat.zero_le _
  | @accepts rest c mailbox hb hq hm =>
    refine ⟨?_, hi.waits, hi.holds⟩
    unfold unsignalled at hold ⊢
    rw [hm, hq, hb, List.length_cons, List.count_cons_self] at hold
    dsimp only [BrokerPlace.isOffered] at hold ⊢
    omega
  | readsNone hb hq =>
    refine hi.of_frame rfl ?_ rfl rfl (fun _ => id) rfl
    rw [hq]
    exact (List.count_cons_of_ne (by simp)).symm
  | reads hb hq _ _ hplace =>
    refine hi.of_frame rfl ?_ rfl ?_ (fun _ => id) rfl
    · rw [hq]
      exact (List.count_cons_of_ne (by simp)).symm
    · rw [hb]
      rcases hplace with rfl | rfl
      · rfl
      · rfl
  | watches hb => exact hi.of_frame rfl rfl rfl (by rw [hb]; rfl) (fun _ => id) rfl
  | keeps hb => exact hi.of_frame rfl rfl rfl (by rw [hb]; rfl) (fun _ => id) rfl
  | leaves => exact ⟨Nat.zero_le _, hi.waits, hi.holds⟩
  | drops => exact hi.of_frame rfl rfl rfl rfl (fun _ => id) rfl
  | requestsStop =>
    refine hi.of_frame rfl ?_ rfl rfl (fun _ => id) rfl
    rw [List.count_append]
    rfl
  | @dials c hl hc =>
    refine ⟨?_, hi.waits_update (by simp [hc]), fun x hx => ?_⟩
    · have hlen := length_requestAccepting s c
      unfold unsignalled at hold ⊢
      rw [hl] at hold
      dsimp only [Option.toList, List.length_nil, List.length_singleton] at hold ⊢
      omega
    · obtain rfl := Option.some.inj hx
      exact ⟨_, Function.update_self ..⟩
  | @waits c hl hc =>
    refine ⟨hold, fun x hx => ?_, fun x hx => ?_⟩
    · rcases List.mem_append.mp hx with hx | hx
      · exact hi.waits_update (by simp [hc]) x hx
      · rw [List.mem_singleton.mp hx]
        exact Function.update_self ..
    · rw [hl] at hx
      cases hx
  | @dialNotifies c place hl =>
    obtain ⟨accepted, hc⟩ := hi.holds c hl
    refine ⟨?_, hi.waits_update (by simp [hc]), nofun⟩
    unfold unsignalled at hold ⊢
    rw [hl] at hold
    dsimp only [Option.toList, List.length_nil, List.length_singleton] at hold ⊢
    have hmonitor : s.broker.hasMonitor = true := hok
    rw [if_pos hmonitor, List.count_append, List.count_singleton_self]
    omega
  | @wakes c hl hconn =>
    refine ⟨hold, fun x hx => ?_, fun x hx => ?_⟩
    · rw [hconn] at hx
      cases hx
    · rw [hl] at hx
      cases hx
  | @timesOut c hl =>
    refine ⟨hold, fun x hx => ?_, fun x hx => ?_⟩
    · obtain ⟨hmem, hne⟩ := List.mem_filter.mp hx
      dsimp only
      rw [Function.update_of_ne (by simpa using hne)]
      exact hi.waits x hmem
    · rw [hl] at hx
      cases hx
  | sends => exact hi.of_frame rfl rfl rfl rfl (fun _ => id) rfl
  | sendNotifies =>
    refine hi.of_frame rfl ?_ rfl rfl (fun _ => id) rfl
    split_ifs
    · rw [List.count_append, List.count_cons_of_ne (by simp)]
      rfl
    · rfl
  | idle => exact hi

/-! ## The messages of the sockets -/

/-- The accounts of the mailboxes of the sockets that the broker holds. -/
structure ReadsAccounted (s : Wakeups σ α) : Prop where
  reads : ∀ n, s.Tracked n → (s.inbox n).length ≤ s.signals.count (.recv n) + s.sending n
  alive : ∀ n, s.Tracked n → s.alive n = true
  table : ∀ n ∈ s.table, s.monitored n = true
  watched : ∀ n, s.broker = .monitored n → s.monitored n = true
  names : ∀ n, s.Tracked n → n < s.nextName

omit [DecidableEq σ] in
theorem readsAccounted_start : (start : Wakeups σ α).ReadsAccounted := by
  have hnone : ∀ n, ¬ (start : Wakeups σ α).Tracked n := by
    rintro n (hn | hn)
    · simp [start] at hn
    · cases hn
  refine ⟨fun n hn => absurd hn (hnone n), fun n hn => absurd hn (hnone n), fun n hn => ?_,
    nofun, fun n hn => absurd hn (hnone n)⟩
  exact absurd (.inl hn) (hnone n)

omit [DecidableEq σ] in
/-- A step that leaves the sockets alone keeps the accounts. -/
theorem ReadsAccounted.of_frame (hi : s.ReadsAccounted) (htable : s'.table = s.table)
    (hhand : s'.broker.hand = s.broker.hand) (hplace : ∀ n, s'.broker = .monitored n →
      s.broker = .monitored n)
    (hcount : ∀ n, s'.signals.count (.recv n) = s.signals.count (.recv n))
    (hmonitored : s'.monitored = s.monitored) (halive : s'.alive = s.alive)
    (hinbox : s'.inbox = s.inbox) (hsending : s'.sending = s.sending)
    (hname : s'.nextName = s.nextName) : s'.ReadsAccounted := by
  have htracked : ∀ n, s'.Tracked n → s.Tracked n := by
    intro n hn
    unfold Tracked at hn ⊢
    rwa [htable, hhand] at hn
  refine ⟨fun n hn => ?_, fun n hn => ?_, fun n hn => ?_, fun n hn => ?_, fun n hn => ?_⟩
  · rw [hinbox, hcount, hsending]
    exact hi.reads n (htracked n hn)
  · rw [halive]
    exact hi.alive n (htracked n hn)
  · rw [hmonitored]
    exact hi.table n (htable ▸ hn)
  · rw [hmonitored]
    exact hi.watched n (hplace n hn)
  · rw [hname]
    exact hi.names n (htracked n hn)

/-- One step keeps the accounts of the sockets, when the signal for the socket that is being accepted
finds its monitor. -/
theorem ReadsAccounted.step (hi : s.ReadsAccounted) (hok : s.FindsMonitor a)
    (h : step handle s a = some s') : s'.ReadsAccounted := by
  have hother : ∀ x : BrokerSignal, (∀ n, x ≠ .recv n) → ∀ n,
      (s.signals ++ [x]).count (.recv n) = s.signals.count (.recv n) := by
    intro x hx n
    rw [List.count_append, List.count_cons_of_ne (hx n)]
    rfl
  cases moves_of_step h with
  | proceeds _ _ hhand hplace =>
    exact hi.of_frame rfl hhand (fun n hn => absurd hn (hplace n)) (fun _ => rfl) rfl rfl rfl rfl rfl
  | offers hb => exact hi.of_frame rfl (by rw [hb]; rfl) nofun (fun _ => rfl) rfl rfl rfl rfl rfl
  | offerNotifies hb =>
    exact hi.of_frame rfl (by rw [hb]; rfl) nofun (hother .accept nofun) rfl rfl rfl rfl rfl
  | takesStop hb hq =>
    refine hi.of_frame rfl (by rw [hb]; rfl) nofun (fun n => ?_) rfl rfl rfl rfl rfl
    rw [hq]
    exact (List.count_cons_of_ne (by simp)).symm
  | findsNone hb hq =>
    refine hi.of_frame rfl rfl (fun _ => id) (fun n => ?_) rfl rfl rfl rfl rfl
    rw [hq]
    exact (List.count_cons_of_ne (by simp)).symm
  | @accepts rest c mailbox hb hq =>
    -- The new socket has an empty mailbox, and all others have smaller names.
    have hcount : ∀ n, rest.count (.recv n) = s.signals.count (.recv n) := by
      intro n
      rw [hq]
      exact (List.count_cons_of_ne (by simp)).symm
    have htracked : ∀ n, n ∈ s.table ∨ s.nextName = n → s.Tracked n ∧ n ≠ s.nextName ∨
        n = s.nextName := by
      rintro n (hn | rfl)
      · exact .inl ⟨.inl hn, (hi.names n (.inl hn)).ne⟩
      · exact .inr rfl
    refine ⟨fun n hn => ?_, fun n hn => ?_, fun n hn => ?_, nofun, fun n hn => ?_⟩
    · dsimp only
      rcases htracked n (hn.imp id Option.some.inj) with ⟨hold, hne⟩ | rfl
      · rw [Function.update_of_ne hne, hcount]
        exact hi.reads n hold
      · rw [Function.update_self]
        exact Nat.zero_le _
    · dsimp only
      rcases htracked n (hn.imp id Option.some.inj) with ⟨hold, hne⟩ | rfl
      · rw [Function.update_of_ne hne]
        exact hi.alive n hold
      · exact Function.update_self ..
    · dsimp only
      rw [Function.update_of_ne (hi.names n (.inl hn)).ne]
      exact hi.table n hn
    · rcases htracked n (hn.imp id Option.some.inj) with ⟨hold, -⟩ | rfl
      · exact Nat.lt_succ_of_lt (hi.names n hold)
      · exact Nat.lt_succ_self _
  | @readsNone rest m hb hq hnone =>
    refine ⟨fun n hn => ?_, hi.alive, hi.table, hi.watched, hi.names⟩
    have hold := hi.reads n hn
    have htable : n ∈ s.table := hn.resolve_right (by rw [hb]; nofun)
    dsimp only
    rw [hq, List.count_cons] at hold
    split_ifs at hold with heq
    · obtain rfl : m = n := by simpa using heq
      rw [hnone htable]
      exact Nat.zero_le _
    · exact hold
  | @reads rest m msg q broker table hb hq hm hin hplace hsub =>
    have hhand : broker.hand = none := by
      rcases hplace with rfl | rfl
      · rfl
      · rfl
    have htracked : ∀ n, n ∈ table ∨ broker.hand = some n → s.Tracked n := by
      rintro n (hn | hn)
      · exact .inl (hsub hn)
      · rw [hhand] at hn
        cases hn
    refine ⟨fun n hn => ?_, fun n hn => hi.alive n (htracked n hn), fun n hn => hi.table n (hsub hn),
      fun n hn => ?_, fun n hn => hi.names n (htracked n hn)⟩
    · have hold := hi.reads n (htracked n hn)
      dsimp only
      by_cases heq : n = m
      · subst heq
        rw [hin, hq, List.length_cons, List.count_cons_self] at hold
        rw [Function.update_self]
        omega
      · rw [Function.update_of_ne heq]
        rw [hq, List.count_cons_of_ne (by simpa using fun h => heq h.symm)] at hold
        exact hold
    · rcases hplace with rfl | rfl
      · cases hn
      · cases hn
  | @watches m hb =>
    have hhand : s.Tracked m := .inr (by rw [hb]; rfl)
    have htracked : ∀ n, n ∈ s.table ∨ some m = some n → s.Tracked n := by
      rintro n (hn | hn)
      · exact .inl hn
      · exact Option.some.inj hn ▸ hhand
    refine ⟨fun n hn => hi.reads n (htracked n hn), fun n hn => hi.alive n (htracked n hn),
      fun n hn => ?_, fun n hn => ?_, fun n hn => hi.names n (htracked n hn)⟩
    · dsimp only
      by_cases heq : n = m
      · rw [heq, Function.update_self]
      · rw [Function.update_of_ne heq]
        exact hi.table n hn
    · obtain rfl := BrokerPlace.monitored.inj hn
      exact Function.update_self ..
  | @keeps m hb =>
    have htracked : ∀ n, n ∈ insert m s.table ∨ none = some n → s.Tracked n := by
      rintro n (hn | hn)
      · rcases Finset.mem_insert.mp hn with rfl | hn
        · exact .inr (by rw [hb]; rfl)
        · exact .inl hn
      · cases hn
    refine ⟨fun n hn => hi.reads n (htracked n hn), fun n hn => hi.alive n (htracked n hn),
      fun n hn => ?_, nofun, fun n hn => hi.names n (htracked n hn)⟩
    rcases Finset.mem_insert.mp hn with rfl | hn
    · exact hi.watched n hb
    · exact hi.table n hn
  | leaves =>
    have hnone : ∀ n, ¬ (n ∈ (∅ : Finset ℕ) ∨ none = some n) := by
      rintro n (hn | hn)
      · exact absurd hn (Finset.notMem_empty n)
      · cases hn
    exact ⟨fun n hn => absurd hn (hnone n), fun n hn => absurd hn (hnone n),
      fun n hn => absurd (.inl hn) (hnone n), nofun, fun n hn => absurd hn (hnone n)⟩
  | @drops m hm =>
    refine ⟨hi.reads, fun n hn => ?_, hi.table, hi.watched, hi.names⟩
    have hne : n ≠ m := by
      rintro rfl
      exact hm hn
    dsimp only
    rw [Function.update_of_ne hne]
    exact hi.alive n hn
  | requestsStop => exact hi.of_frame rfl rfl (fun _ => id) (hother .stop nofun) rfl rfl rfl rfl rfl
  | dials => exact hi.of_frame rfl rfl (fun _ => id) (fun _ => rfl) rfl rfl rfl rfl rfl
  | waits => exact hi.of_frame rfl rfl (fun _ => id) (fun _ => rfl) rfl rfl rfl rfl rfl
  | dialNotifies =>
    refine hi.of_frame rfl rfl (fun _ => id) (fun n => ?_) rfl rfl rfl rfl rfl
    split_ifs
    · exact hother .accept nofun n
    · rfl
  | wakes => exact hi.of_frame rfl rfl (fun _ => id) (fun _ => rfl) rfl rfl rfl rfl rfl
  | timesOut => exact hi.of_frame rfl rfl (fun _ => id) (fun _ => rfl) rfl rfl rfl rfl rfl
  | @sends c m msg =>
    refine ⟨fun n hn => ?_, hi.alive, hi.table, hi.watched, hi.names⟩
    have hold := hi.reads n hn
    dsimp only
    by_cases heq : n = m
    · subst heq
      rw [Function.update_self, Function.update_self, List.length_append, List.length_singleton]
      omega
    · rw [Function.update_of_ne heq, Function.update_of_ne heq]
      exact hold
  | @sendNotifies m hpos =>
    refine ⟨fun n hn => ?_, hi.alive, hi.table, hi.watched, hi.names⟩
    have hold := hi.reads n hn
    dsimp only
    by_cases heq : n = m
    · subst heq
      -- The socket has its monitor, so the message that was without a signal gets one.
      have hmonitored : s.monitored n = true :=
        hn.elim (hi.table n) fun hhand => hok hhand
      rw [if_pos (by rw [hi.alive n hn, hmonitored]; rfl), List.count_append,
        List.count_singleton_self, Function.update_self]
      omega
    · rw [Function.update_of_ne heq]
      split_ifs
      · rw [List.count_append]
        omega
      · exact hold
  | idle => exact hi

/-! ## Runs -/

omit [DecidableEq σ] in
/-- In a quiet state, all mail has its signal. -/
theorem covered_of_quiet (ha : s.AcceptsAccounted) (hr : s.ReadsAccounted) (hq : s.Quiet) :
    s.Covered := by
  have hconn : s.connections = [] := by
    cases hc : s.connections with
    | nil => rfl
    | cons c rest => exact absurd (ha.waits c (by rw [hc]; exact List.mem_cons_self ..)) (hq.waiting c)
  have hlock : s.lock = none := by
    cases hl : s.lock with
    | none => rfl
    | some c =>
      obtain ⟨accepted, hc⟩ := ha.holds c hl
      exact absurd hc (hq.connecting c accepted)
  refine ⟨?_, fun n hn => ?_⟩
  · have haccepts := ha.accepts
    unfold unsignalled at haccepts
    rw [hlock, hq.offered] at haccepts
    rw [hconn]
    exact haccepts
  · have hreads := hr.reads n (.inl hn)
    rw [hq.sending n] at hreads
    exact hreads

/-- The accounts hold in every state of a run whose signals find their monitors. -/
theorem accounted_of_reach (h : ReachVia (step handle) FindsMonitor start s) :
    s.AcceptsAccounted ∧ s.ReadsAccounted := by
  refine h.invariant (P := fun s => s.AcceptsAccounted ∧ s.ReadsAccounted)
    ⟨acceptsAccounted_start, readsAccounted_start⟩ ?_
  exact fun s a s' _ hi hok hs => ⟨hi.1.step hok hs, hi.2.step hok hs⟩

/-! ## Progress -/

/-- The messages of the socket `n` that a step of the loop reads. -/
def readsOf (n : ℕ) (s : Wakeups σ α) : WakeAct σ α → List α
  | .take =>
    match s.broker, s.signals with
    | .loop, .recv m :: _ => if m = n ∧ n ∈ s.table then (s.inbox n).head?.toList else []
    | _, _ => []
  | _ => []

/-- The sockets that a step of the loop takes out of the acceptor's mailbox. -/
def acceptsOf (s : Wakeups σ α) : WakeAct σ α → List σ
  | .take =>
    match s.broker, s.signals with
    | .loop, .accept :: _ => s.mailbox.head?.toList
    | _, _ => []
  | _ => []

omit [DecidableEq σ] in
theorem readsOf_of_not_takes (n : ℕ) (h : takes a = false) : readsOf n s a = [] := by
  cases a with
  | take => cases h
  | _ => rfl

omit [DecidableEq σ] in
theorem acceptsOf_of_not_takes (h : takes a = false) : acceptsOf s a = [] := by
  cases a with
  | take => cases h
  | _ => rfl

/-- The signals are the queue of the machine as long as `broker_start` does not return. -/
theorem fifo_signals {live : Wakeups σ α → Prop}
    (hlive : ∀ s : Wakeups σ α, s.broker = .start → s.table = ∅ → ¬ live s) :
    Fifo (step handle) signals takes live where
  take s a s' _ _ h ha := by
    cases moves_of_step h with
    | takesStop _ hq => exact ⟨_, _, [], hq, (List.append_nil _).symm⟩
    | findsNone _ hq _ => exact ⟨_, _, [], hq, (List.append_nil _).symm⟩
    | accepts _ hq _ => exact ⟨_, _, [], hq, (List.append_nil _).symm⟩
    | readsNone _ hq _ => exact ⟨_, _, [], hq, (List.append_nil _).symm⟩
    | reads _ hq => exact ⟨_, _, [], hq, (List.append_nil _).symm⟩
    | proceeds hno | idle hno =>
      rw [ha] at hno
      cases hno
    | _ => cases ha
  keep s a s' _ hl h ha := by
    cases moves_of_step h with
    | takesStop | findsNone | accepts | readsNone | reads => cases ha
    | leaves => exact absurd hl (hlive _ rfl rfl)
    | offerNotifies => exact ⟨_, rfl⟩
    | requestsStop => exact ⟨_, rfl⟩
    | dialNotifies | sendNotifies =>
      split_ifs
      · exact ⟨_, rfl⟩
      · exact ⟨[], (List.append_nil _).symm⟩
    | _ => exact ⟨[], (List.append_nil _).symm⟩

/-- The messages of a socket wait for the signals that name it, as long as it is in the table. -/
theorem served_messages (n : ℕ) : Served (step handle) signals takes (.recv n)
    (fun s : Wakeups σ α => s.inbox n) (fun s => n ∈ s.table ∧ n < s.nextName) (readsOf n) where
  serve s a s' hl _ h ha hfront := by
    cases moves_of_step h with
    | takesStop _ hq | findsNone _ hq | accepts _ hq =>
      rw [hq] at hfront
      cases hfront
    | readsNone hb hq hnone =>
      rw [hq] at hfront
      cases hfront
      refine ⟨[], ?_, ?_⟩
      · rw [hnone hl.1]
        rfl
      · simp only [readsOf, hb, hq, hl.1, and_self, if_true]
    | reads hb hq hm hin =>
      rw [hq] at hfront
      cases hfront
      refine ⟨[], ?_, ?_⟩
      · dsimp only
        rw [hin, Function.update_self, List.append_nil, List.tail_cons]
      · simp only [readsOf, hb, hq, hl.1, and_self, if_true]
    | proceeds hno | idle hno =>
      rw [ha] at hno
      cases hno
    | _ => cases ha
  keep s a s' hl _ h hfront := by
    have hsame : ∀ q : List α, q = q ++ [] := fun q => (List.append_nil q).symm
    cases moves_of_step h with
    | proceeds hno | idle hno => exact ⟨[], hsame _, readsOf_of_not_takes n hno⟩
    | takesStop hb hq | findsNone hb hq => exact ⟨[], hsame _, by simp only [readsOf, hb, hq]⟩
    | accepts hb hq =>
      refine ⟨[], ?_, by simp only [readsOf, hb, hq]⟩
      dsimp only
      rw [List.append_nil, Function.update_of_ne hl.2.ne]
    | @readsNone rest m hb hq =>
      have hne : m ≠ n := by
        rintro rfl
        exact hfront rfl (by rw [hq]; rfl)
      exact ⟨[], hsame _, by simp only [readsOf, hb, hq, hne, false_and, if_false]⟩
    | @reads rest m msg q broker table hb hq hm hin =>
      have hne : m ≠ n := by
        rintro rfl
        exact hfront rfl (by rw [hq]; rfl)
      refine ⟨[], ?_, by simp only [readsOf, hb, hq, hne, false_and, if_false]⟩
      dsimp only
      rw [List.append_nil, Function.update_of_ne hne.symm]
    | @sends c m msg =>
      by_cases heq : n = m
      · subst heq
        exact ⟨[msg], Function.update_self .., rfl⟩
      · refine ⟨[], ?_, rfl⟩
        dsimp only
        rw [List.append_nil, Function.update_of_ne heq]
    | _ => exact ⟨[], hsame _, rfl⟩

/-- The sockets in the acceptor's mailbox wait for the signals `accept`, as long as there is an
acceptor. -/
theorem served_sockets : Served (step handle) signals takes .accept
    (fun s : Wakeups σ α => s.mailbox) (fun s => s.broker.isRegistered = true) acceptsOf where
  serve s a s' _ _ h ha hfront := by
    cases moves_of_step h with
    | takesStop _ hq | readsNone _ hq | reads _ hq =>
      rw [hq] at hfront
      cases hfront
    | findsNone hb hq hm =>
      refine ⟨[], ?_, by simp only [acceptsOf, hb, hq]⟩
      rw [hm]
      rfl
    | accepts hb hq hm =>
      refine ⟨[], ?_, by simp only [acceptsOf, hb, hq]⟩
      rw [hm, List.append_nil, List.tail_cons]
    | proceeds hno | idle hno =>
      rw [ha] at hno
      cases hno
    | _ => cases ha
  keep s a s' _ hl h hfront := by
    have hsame : ∀ q : List σ, q = q ++ [] := fun q => (List.append_nil q).symm
    have hadded : ∀ c, ∃ added, (s.requestAccepting c).1 = s.mailbox ++ added := by
      intro c
      unfold requestAccepting
      split
      · exact ⟨[], hsame _⟩
      · next q hset =>
        obtain ⟨-, hq⟩ := Option.ite_none_left_eq_some.mp hset
        exact ⟨[c], (Option.some.inj hq).symm⟩
    cases moves_of_step h with
    | proceeds hno | idle hno => exact ⟨[], hsame _, acceptsOf_of_not_takes hno⟩
    | takesStop hb hq | readsNone hb hq | reads hb hq =>
      exact ⟨[], hsame _, by simp only [acceptsOf, hb, hq]⟩
    | findsNone _ hq | accepts _ hq => exact absurd (by rw [hq]; rfl) (hfront rfl)
    | leaves => cases hl
    | offers | dials =>
      obtain ⟨added, hadd⟩ := hadded _
      exact ⟨added, hadd, rfl⟩
    | _ => exact ⟨[], hsame _, rfl⟩

/-- A name is not used again. -/
theorem nextName_le_step (h : step handle s a = some s') : s.nextName ≤ s'.nextName := by
  cases moves_of_step h with
  | accepts => exact Nat.le_succ _
  | _ => exact Nat.le_refl _

theorem along_names {n : ℕ} {acts : List (WakeAct σ α)} (hn : n < s.nextName)
    (h : Along (step handle) (fun s => n ∈ s.table) s acts) :
    Along (step handle) (fun s => n ∈ s.table ∧ n < s.nextName) s acts := by
  induction acts generalizing s with
  | nil => exact ⟨h, hn⟩
  | cons a acts ih =>
    exact ⟨⟨h.1, hn⟩, fun s' hs => ih (lt_of_lt_of_le hn (nextName_le_step hs)) (h.2 s' hs)⟩

/-- In every run whose signals find their monitors, all mail has its signal in every quiet state.
From there, once the loop has taken the signals that are queued, it has taken the messages of each
socket that stays in the table, and the sockets in the acceptor's mailbox, first and in order. -/
theorem no_lost_wakeup (handle : α → Handling) :
    (∀ acts : List (WakeAct σ α), Meets (step handle) FindsMonitor start acts →
      Along (step handle) (fun s => s.Quiet → s.Covered) start acts) ∧
    ∀ (s : Wakeups σ α) (acts : List (WakeAct σ α)),
      ReachVia (step handle) FindsMonitor start s → s.Quiet →
      s.signals.length ≤ acts.countP takes →
      (∀ n r, Along (step handle) (fun s => n ∈ s.table) s acts →
        run (record (step handle) (readsOf n)) ⟨s, []⟩ acts = some r → s.inbox n <+: r.history) ∧
      ∀ r, Along (step handle) (fun s => s.broker.isRegistered = true) s acts →
        run (record (step handle) acceptsOf) ⟨s, []⟩ acts = some r → s.mailbox <+: r.history := by
  refine ⟨fun acts hm => hm.along (fun s hs => ?_) .init, fun s acts hs hq htakes => ⟨?_, ?_⟩⟩
  · obtain ⟨ha, hr⟩ := accounted_of_reach hs
    exact covered_of_quiet ha hr
  · intro n r hlive hrun
    obtain ⟨ha, hr⟩ := accounted_of_reach hs
    have hn := hlive.head
    have hcovered := (covered_of_quiet ha hr hq).reads n hn
    obtain ⟨e, he, hprefix⟩ := (served_messages n).taken
      (fifo_signals fun s _ htable hin => by simp [htable] at hin)
      (List.append_nil (s.inbox n)).symm (List.append_nil s.signals).symm hcovered htakes
      (along_names (hr.names n (.inl hn)) hlive) hrun
    rw [he]
    exact hprefix
  · intro r hlive hrun
    obtain ⟨ha, hr⟩ := accounted_of_reach hs
    have hcovered := (covered_of_quiet ha hr hq).accepts
    obtain ⟨e, he, hprefix⟩ := served_sockets.taken
      (fifo_signals fun s hb _ hin => by simp [hb, BrokerPlace.isRegistered] at hin)
      (List.append_nil s.mailbox).symm (List.append_nil s.signals).symm
      (le_trans (Nat.le_add_right _ _) hcovered) htakes hlive hrun
    rw [he]
    exact hprefix

/-- A client dials before the acceptor has its monitor. -/
def dialsEarly : List (WakeAct Unit ℕ) :=
  [.construct, .dial (), .dialNotify, .setMonitor, .release]

/-- A client sends before the accepted socket has its monitor. -/
def sendsEarly : List (WakeAct Unit ℕ) :=
  [.construct, .setMonitor, .release, .dial (), .dialNotify, .take, .attach, .finishAccept,
    .send () 7, .sendNotify 0, .watch, .keep]

/-- A client that has sent once is not sending any more. -/
theorem sent_once (n : ℕ) : Function.update (Function.update (fun _ => 0) 0 1) 0 0 n = 0 := by
  by_cases hn : n = 0
  · rw [hn, Function.update_self]
  · rw [Function.update_of_ne hn, Function.update_of_ne hn]

/-- In both windows the signal is lost: a socket stays in the acceptor's mailbox, and a message in
the mailbox of a socket of the table, without a signal, and the loop has nothing to take. -/
theorem early_not_covered :
    (∃ s : Wakeups Unit ℕ, run (step fun _ => .keep) start dialsEarly = some s ∧ s.Quiet ∧
      ¬ s.Covered ∧ s.mailbox = [()] ∧ s.signals = []) ∧
    ∃ s : Wakeups Unit ℕ, run (step fun _ => .keep) start sendsEarly = some s ∧ s.Quiet ∧
      ¬ s.Covered ∧ 0 ∈ s.table ∧ s.inbox 0 = [7] ∧ s.signals = [] := by
  refine ⟨⟨_, rfl, ⟨nofun, nofun, fun _ => rfl, rfl, rfl⟩, fun h => ?_, rfl, rfl⟩,
    ⟨_, rfl, ⟨nofun, nofun, sent_once, rfl, rfl⟩, fun h => ?_, ?_, rfl, rfl⟩⟩
  · exact absurd h.accepts (by decide)
  · exact absurd (h.reads 0 (by decide)) (by decide)
  · decide

/-- A client that dials and sends when the monitors are set. -/
def sendsLate : List (WakeAct Unit ℕ) :=
  [.construct, .setMonitor, .release, .dial (), .dialNotify, .take, .attach, .finishAccept, .watch,
    .keep, .send () 7, .sendNotify 0]

/-- The state after `sendsLate`, and what the next signal does. -/
theorem run_sendsLate : ∃ s : Wakeups Unit ℕ, run (step fun _ => .keep) start sendsLate = some s ∧
    s.Quiet ∧ s.signals.length ≤ 1 ∧
    Along (step fun _ => .keep) (fun s => 0 ∈ s.table) s [.take] ∧
    Along (step fun _ => .keep) (fun s => s.broker.isRegistered = true) s [.take] ∧
    (∃ r, run (record (step fun _ => .keep) (readsOf 0)) ⟨s, []⟩ [.take] = some r) ∧
    ∃ r, run (record (step fun _ => .keep) acceptsOf) ⟨s, []⟩ [.take] = some r := by
  refine ⟨_, rfl, ⟨nofun, nofun, sent_once, rfl, rfl⟩, by decide, ⟨by decide, ?_⟩, ⟨rfl, ?_⟩,
    ⟨_, rfl⟩, _, rfl⟩
  · rintro s' hs
    obtain rfl := Option.some.inj hs
    exact (by decide : (0 : ℕ) ∈ ({0} : Finset ℕ))
  · rintro s' hs
    obtain rfl := Option.some.inj hs
    exact rfl

/-- In the state after `sendsLate`, the next signal is all it takes. -/
theorem no_lost_wakeup_sendsLate :
    Along (step fun _ => .keep) (fun s => s.Quiet → s.Covered) (start : Wakeups Unit ℕ) sendsLate ∧
    ∃ s : Wakeups Unit ℕ, run (step fun _ => .keep) start sendsLate = some s ∧
      (∃ r, run (record (step fun _ => .keep) (readsOf 0)) ⟨s, []⟩ [.take] = some r ∧
        s.inbox 0 <+: r.history) ∧
      ∃ r, run (record (step fun _ => .keep) acceptsOf) ⟨s, []⟩ [.take] = some r ∧
        s.mailbox <+: r.history := by
  have hmeets : Meets (step fun _ => .keep) FindsMonitor (start : Wakeups Unit ℕ) sendsLate := by
    decide
  obtain ⟨s, hrun, hquiet, hlen, htable, hregistered, ⟨r₁, hr₁⟩, r₂, hr₂⟩ := run_sendsLate
  obtain ⟨hmessages, hsockets⟩ := (no_lost_wakeup fun _ => .keep).2 s [.take]
    (ReachVia.init.of_run hmeets hrun) hquiet hlen
  exact ⟨(no_lost_wakeup fun _ => .keep).1 sendsLate hmeets, s, hrun,
    ⟨r₁, hr₁, hmessages 0 r₁ htable hr₁⟩, r₂, hr₂, hsockets r₂ hregistered hr₂⟩

end Wakeups

end Ailoy
