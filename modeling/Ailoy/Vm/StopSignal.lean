import Ailoy.Core.Mailbox
import Ailoy.Lib.Fifo
import Ailoy.Vm.Loop

/-!
# The stop signal of a VM

`vm_start` and `vm_stop` of `vm/src/vm.cpp` as threads with the broker's, which take their steps in
any order. `vm_stop` sets a flag and then puts a signal into the queue of the VM's monitor, in which
the broker puts one for each packet. The event loop ends at a stop signal and never looks at the
flag. The handshake takes one signal and does not look at what it is: when it is the stop signal,
and the response to `connect` is there already, the stop is forgotten. `stop_kept_iff` says that this
is the only way to lose it.
-/

namespace Ailoy

open Transition

/-- `signal_t::what`. -/
inductive Signal
  | stop
  | recv
  deriving DecidableEq

/-- Where `vm_start` is. -/
inductive VmPlace (σ ω : Type)
  /-- It makes the monitor, the client and the state. -/
  | connecting
  /-- The state is in `vm_states`. -/
  | registered
  /-- The `connect` packet is sent, and the handshake waits for a signal. -/
  | awaiting (txId : TxId)
  /-- The handshake has taken a signal, and reads the response. -/
  | reading (txId : TxId) (what : Signal)
  /-- Behind the handshake, with the packets that are to be sent before it goes on. -/
  | running (l : Loop σ ω) (out : List Packet)
  /-- A loop has taken a signal that is not a stop, and reads the packet. -/
  | fetching (l : Loop σ ω)
  /-- The handshake has ended it through `raise_exception`, which removes the state. -/
  | raised
  /-- The handshake has ended it in another way. -/
  | threw (f : Fault)

/-- The VM's thread, its monitor and its mailbox, with the flag `exit_`. `stopping` counts the calls
of `vm_stop` that have set the flag and not the signal, and `sending` the packets that are in the
mailbox without their signal. -/
structure VmThread (σ ω : Type) where
  place : VmPlace σ ω
  signals : List Signal
  mailbox : List Packet
  stopFlag : Bool
  stopping : ℕ
  sending : ℕ

/-- A step of a thread. -/
inductive VmAct (σ ω : Type)
  /-- The state is put into `vm_states`. -/
  | register
  /-- The `connect` packet is sent, or it is refused. -/
  | sendConnect (txId : TxId) (sent : Bool)
  /-- `monitor(1s)` of the handshake takes a signal. -/
  | await
  /-- `monitor(1s)` of the handshake has found none. -/
  | giveUp
  /-- The handshake reads the response. -/
  | reply
  /-- `vm_start` goes on without a signal. -/
  | vm (a : LoopAct σ ω)
  /-- It sends the next packet, or the packet is refused. -/
  | send (sent : Bool)
  /-- `monitor(100ms)` takes a signal. -/
  | take
  /-- The packet of the signal is read and handled. -/
  | fetch
  /-- `vm_stop` finds the state and sets the flag. -/
  | requestStop
  /-- `vm_stop` puts the signal. -/
  | notifyStop
  /-- The broker puts a packet into the mailbox. -/
  | deliver (pkt : Packet)
  /-- The broker puts the signal of a packet. -/
  | notifyRecv

variable {σ ω : Type}

/-- The part of its life that `vm_start` is in: 0 up to the end of the handshake, 1 while it imports
modules and in its main loop, 2 behind it. -/
def Activity.phase : Activity σ → ℕ
  | .importing | .listening | .calling _ => 1
  | .draining | .returned | .left _ => 2

/-- The phase at a place. -/
def VmPlace.phase : VmPlace σ ω → ℕ
  | .connecting | .registered | .awaiting _ | .reading _ _ => 0
  | .running l _ | .fetching l => l.activity.phase
  | .raised | .threw _ => 2

/-- The monitor is a local variable of `vm_start`. -/
def VmPlace.hasMonitor : VmPlace σ ω → Bool
  | .running l _ =>
    match l.activity with
    | .returned | .left _ => false
    | _ => true
  | .raised | .threw _ => false
  | _ => true

namespace VmThread

/-- What the handshake makes of a response: the reason for which it is refused, if it is. A status is
not looked at beyond its type. -/
def checkReply (txId : TxId) : Option Packet → Except Fault (Option String)
  | none => .ok (some "Connection response packet not arrived")
  | some pkt =>
    if pkt.ptype ≠ .respond then .ok (some "Invalid connection response packet")
    else do
      let id ← pkt.getTxId
      if id ≠ txId then return some "Invalid connection response packet"
      match pkt.body with
      | none => .error .nullDereference
      | some body => do
        let status ← Value.mapAt body "status"
        match status with
        | .bool _ => return none
        | _ =>
          match body.lookup "reason" with
          | none => return some "Invalid connection response packet"
          | some reason => return some (← reason.asString)

section Step

variable (uuid : ℕ → TxId) (env : ω)

/-- `vm_start` has not begun. -/
def start : VmThread σ ω := ⟨.connecting, [], [], false, 0, 0⟩

/-- `notify_t::notify`. -/
def notify (s : VmThread σ ω) (what : Signal) : VmThread σ ω :=
  if s.place.hasMonitor then { s with signals := s.signals ++ [what] } else s

/-- Where the handshake goes on. -/
def afterReply (txId : TxId) (pkt : Option Packet) : VmPlace σ ω :=
  match checkReply txId pkt with
  | .error f => .threw f
  | .ok (some _) => .raised
  | .ok none => .running (.start env) []

/-- What a loop makes of a signal. -/
def onSignal (l : Loop σ ω) : Signal → Option (VmPlace σ ω)
  | .stop =>
    match l.activity with
    | .listening => (l.step uuid .stop).map fun r => .running r.1 r.2
    -- the loop that collects responses passes over it
    | .draining => some (.running l [])
    | _ => none
  | .recv =>
    match l.activity with
    | .listening | .draining => some (.fetching l)
    | _ => none

/-- What a loop makes of the packet in its mailbox. -/
def onPacket (l : Loop σ ω) : Option Packet → Option (VmPlace σ ω)
  | some pkt => (l.step uuid (.recv pkt)).map fun r => .running r.1 r.2
  | none =>
    match l.activity with
    | .listening => some (.running l [])
    | .draining => some (.running { l with activity := .left .nullDereference } [])
    | _ => none

/-- A step of `vm_start` behind its handshake that takes no signal. -/
def goOn (l : Loop σ ω) : LoopAct σ ω → Option (VmPlace σ ω)
  | .recv _ | .stop => none
  | a => (l.step uuid a).map fun r => .running r.1 r.2

/-- One step. -/
def step (s : VmThread σ ω) : VmAct σ ω → Option (VmThread σ ω)
  | .register =>
    match s.place with
    | .connecting => some { s with place := .registered }
    | _ => none
  | .sendConnect txId sent =>
    match s.place with
    | .registered => some { s with place := if sent then .awaiting txId else .raised }
    | _ => none
  | .await =>
    match s.place, s.signals with
    | .awaiting txId, what :: rest => some { s with place := .reading txId what, signals := rest }
    | _, _ => none
  | .giveUp =>
    match s.place, s.signals with
    | .awaiting _, [] => some { s with place := .raised }
    | _, _ => none
  | .reply =>
    match s.place with
    | .reading txId _ =>
      some { s with place := afterReply env txId s.mailbox.head?, mailbox := s.mailbox.tail }
    | _ => none
  | .vm a =>
    match s.place with
    | .running l [] => (goOn uuid l a).map fun place => { s with place }
    | _ => none
  | .send sent =>
    match s.place with
    | .running l (_ :: out) =>
      match l.activity, sent with
      | .importing, false => some { s with place := .raised }
      | _, _ => some { s with place := .running l out }
    | _ => none
  | .take =>
    match s.place, s.signals with
    | .running l [], what :: rest =>
      (onSignal uuid l what).map fun place => { s with place, signals := rest }
    | _, _ => none
  | .fetch =>
    match s.place with
    | .fetching l =>
      (onPacket uuid l s.mailbox.head?).map fun place =>
        { s with place, mailbox := s.mailbox.tail }
    | _ => none
  | .requestStop =>
    match s.place with
    -- `vm_states` has no entry
    | .connecting | .raised => some s
    | _ => some { s with stopFlag := true, stopping := s.stopping + 1 }
  | .notifyStop =>
    if 0 < s.stopping then some { s.notify .stop with stopping := s.stopping - 1 } else none
  | .deliver pkt =>
    match Mailbox.set s.mailbox pkt with
    | none => some s
    | some mailbox => some { s with mailbox, sending := s.sending + 1 }
  | .notifyRecv =>
    if 0 < s.sending then some { s.notify .recv with sending := s.sending - 1 } else none

end Step

/-! ## The properties -/

/-- A stop signal is queued, or a call of `vm_stop` is about to queue it. -/
def StopComing (s : VmThread σ ω) : Prop := Signal.stop ∈ s.signals ∨ 0 < s.stopping

/-- The VM imports modules or is in its main event loop. -/
def Inside (s : VmThread σ ω) : Prop := s.place.phase = 1

/-- Inside, a stop that was requested is still to come. -/
def StopKept (s : VmThread σ ω) : Prop := s.stopFlag = true → s.Inside → s.StopComing

/-- When the signal that the handshake has taken was a stop, and the response is there, another stop
is to come. -/
def HandshakeSparesStop (s : VmThread σ ω) (a : VmAct σ ω) : Prop :=
  a = .reply → ∀ txId, s.place = .reading txId .stop →
    checkReply txId s.mailbox.head? = .ok none → s.StopComing

/-- The actions that take a signal. -/
def takes : VmAct σ ω → Bool
  | .await | .take => true
  | _ => false

/-! ## What a step does -/

end VmThread

variable {uuid : ℕ → TxId} {env : ω}

namespace Loop

variable {l : Loop σ ω} {r : Loop σ ω × List Packet} {a : LoopAct σ ω}

theorem recv_phase (l : Loop σ ω) (pkt : Packet) : 1 ≤ (l.recv uuid pkt).1.activity.phase := by
  unfold recv
  split
  · exact Nat.le_succ 1
  · exact Nat.le_refl 1
  · exact Nat.le_refl 1

theorem advance_phase (l : Loop σ ω) (c : Call σ) : 1 ≤ (l.advance c).1.activity.phase := by
  unfold advance
  split
  · exact Nat.le_succ 1
  · split_ifs
    · exact Nat.le_refl 1
    · exact Nat.le_refl 1
  · exact Nat.le_refl 1

theorem drain_phase (l : Loop σ ω) (pkt : Packet) (h : l.activity.phase = 2) :
    (l.drain pkt).activity.phase = 2 := by
  unfold drain
  split
  · rfl
  · split_ifs
    · exact h
    · exact h

/-- `vm_start` does not go back to an earlier phase. -/
theorem phase_le (h : l.step uuid a = some r) : l.activity.phase ≤ r.1.activity.phase := by
  obtain ⟨vm, activity⟩ := l
  cases activity with
  | importing =>
    cases a with
    | importModule mod =>
      obtain rfl := Option.some.inj h
      exact Nat.le_refl 1
    | enter =>
      obtain rfl := Option.some.inj h
      exact Nat.le_refl 1
    | _ => cases h
  | listening =>
    cases a with
    | recv pkt =>
      obtain rfl := Option.some.inj h
      exact recv_phase _ pkt
    | stop =>
      obtain rfl := Option.some.inj h
      exact Nat.le_succ 1
    | _ => cases h
  | calling c =>
    cases a with
    | advance =>
      obtain rfl := Option.some.inj h
      exact advance_phase _ c
    | _ => cases h
  | draining =>
    cases a with
    | recv pkt =>
      obtain rfl := Option.some.inj h
      exact Nat.le_of_eq (drain_phase _ pkt rfl).symm
    | disconnect txId =>
      obtain rfl := Option.some.inj h
      exact Nat.le_refl 2
    | _ => cases h
  | returned | left f => cases a <;> cases h

/-- A stop ends the main loop. -/
theorem phase_stop (h : l.step uuid .stop = some r) : r.1.activity.phase = 2 := by
  obtain ⟨vm, activity⟩ := l
  cases activity with
  | listening =>
    obtain rfl := Option.some.inj h
    rfl
  | importing | calling c | draining | returned | left f => cases h

end Loop

namespace VmThread

variable {s s' : VmThread σ ω} {a : VmAct σ ω}

/-- The handshake accepts the response that it reads. -/
def Accepts (s : VmThread σ ω) (a : VmAct σ ω) : Prop :=
  a = .reply ∧ ∃ txId what, s.place = .reading txId what ∧
    checkReply txId s.mailbox.head? = .ok none

/-- All that a step can do to the place, the signals, and the stop. -/
inductive Moves (s : VmThread σ ω) (a : VmAct σ ω) : VmThread σ ω → Prop
  /-- `vm_start` goes on without a signal, and gets behind the handshake by a response. -/
  | proceeds {place : VmPlace σ ω} {mailbox : List Packet} :
      s.place.phase ≤ place.phase → (∀ txId what, place ≠ .reading txId what) →
      (s.place.phase = 0 → (place.phase = 1 ↔ Accepts s a)) →
      ((∃ txId what, s.place = .reading txId what) → place.phase ≠ 0) → takes a = false →
      Moves s a { s with place, mailbox }
  /-- The handshake takes a signal. -/
  | awaits {txId : TxId} {what : Signal} {rest : List Signal} : s.place = .awaiting txId →
      s.signals = what :: rest → takes a = true →
      Moves s a { s with place := .reading txId what, signals := rest }
  /-- A loop takes a signal. -/
  | serves {place : VmPlace σ ω} {what : Signal} {rest : List Signal} : 1 ≤ s.place.phase →
      s.place.phase ≤ place.phase → s.signals = what :: rest →
      (what = .stop → place.phase = 2) → takes a = true →
      Moves s a { s with place, signals := rest }
  /-- A call of `vm_stop` sets the flag. -/
  | requests : takes a = false →
      Moves s a { s with stopFlag := true, stopping := s.stopping + 1 }
  /-- A call of `vm_stop` puts the signal, if there is a monitor. -/
  | stops {signals : List Signal} {stopping : ℕ} : s.stopping = stopping + 1 →
      signals = s.signals ++ [.stop] ∨ (signals = s.signals ∧ s.place.phase = 2) →
      takes a = false → Moves s a { s with signals, stopping }
  /-- The broker puts a packet or its signal, or `vm_stop` finds nothing. -/
  | arrives {signals : List Signal} {mailbox : List Packet} {sending : ℕ} :
      signals = s.signals ∨ signals = s.signals ++ [.recv] → takes a = false →
      Moves s a { s with signals, mailbox, sending }

theorem phase_of_hasMonitor {place : VmPlace σ ω} (h : place.hasMonitor = false) :
    place.phase = 2 := by
  cases place with
  | running l out =>
    obtain ⟨vm, activity⟩ := l
    cases activity with
    | returned | left f => rfl
    | importing | listening | calling c | draining => cases h
  | raised | threw f => rfl
  | connecting | registered | awaiting txId | reading txId what | fetching l => cases h

theorem notify_eq (s : VmThread σ ω) (what : Signal) :
    s.notify what = { s with signals := (s.notify what).signals } := by
  unfold notify
  split_ifs
  · rfl
  · rfl

theorem notify_signals (s : VmThread σ ω) (what : Signal) :
    (s.notify what).signals = s.signals ++ [what] ∨
      ((s.notify what).signals = s.signals ∧ s.place.phase = 2) := by
  unfold notify
  split_ifs with hmonitor
  · exact .inl rfl
  · exact .inr ⟨rfl, phase_of_hasMonitor (Bool.not_eq_true _ ▸ hmonitor)⟩

theorem afterReply_phase (env : ω) (txId : TxId) (pkt : Option Packet) :
    (afterReply env txId pkt : VmPlace σ ω).phase ≠ 0 ∧
      ((afterReply env txId pkt : VmPlace σ ω).phase = 1 ↔ checkReply txId pkt = .ok none) := by
  unfold afterReply
  cases hcheck : checkReply txId pkt with
  | error f => exact ⟨Nat.succ_ne_zero 1, by simp [VmPlace.phase]⟩
  | ok reason =>
    cases reason with
    | some text => exact ⟨Nat.succ_ne_zero 1, by simp [VmPlace.phase]⟩
    | none => exact ⟨Nat.succ_ne_zero 0, by simp [VmPlace.phase, Loop.start, Activity.phase]⟩

/-- A loop that takes a signal gets behind its main part by a stop. -/
theorem onSignal_phase {l : Loop σ ω} {what : Signal} {place : VmPlace σ ω}
    (h : onSignal uuid l what = some place) :
    1 ≤ l.activity.phase ∧ l.activity.phase ≤ place.phase ∧ (what = .stop → place.phase = 2) := by
  obtain ⟨vm, activity⟩ := l
  cases what with
  | stop =>
    cases activity with
    | listening =>
      have hstep : (Loop.step uuid ⟨vm, .listening⟩ .stop).map (fun r => .running r.1 r.2) =
          some place := h
      obtain ⟨r, hr, rfl⟩ := Option.map_eq_some_iff.mp hstep
      have hstop := Loop.phase_stop hr
      exact ⟨Nat.le_refl 1, Loop.phase_le hr, fun _ => hstop⟩
    | draining =>
      obtain rfl := Option.some.inj h
      exact ⟨Nat.le_succ 1, Nat.le_refl 2, fun _ => rfl⟩
    | importing | calling c | returned | left f => cases h
  | recv =>
    cases activity with
    | listening =>
      obtain rfl := Option.some.inj h
      exact ⟨Nat.le_refl 1, Nat.le_refl 1, nofun⟩
    | draining =>
      obtain rfl := Option.some.inj h
      exact ⟨Nat.le_succ 1, Nat.le_refl 2, nofun⟩
    | importing | calling c | returned | left f => cases h

theorem onPacket_phase {l : Loop σ ω} {pkt : Option Packet} {place : VmPlace σ ω}
    (h : onPacket uuid l pkt = some place) :
    l.activity.phase ≤ place.phase ∧ ∀ txId what, place ≠ .reading txId what := by
  cases pkt with
  | some pkt =>
    obtain ⟨r, hr, rfl⟩ := Option.map_eq_some_iff.mp h
    exact ⟨Loop.phase_le hr, nofun⟩
  | none =>
    obtain ⟨vm, activity⟩ := l
    cases activity with
    | listening =>
      obtain rfl := Option.some.inj h
      exact ⟨Nat.le_refl 1, nofun⟩
    | draining =>
      obtain rfl := Option.some.inj h
      exact ⟨Nat.le_refl 2, nofun⟩
    | importing | calling c | returned | left f => cases h

theorem goOn_phase {l : Loop σ ω} {b : LoopAct σ ω} {place : VmPlace σ ω}
    (h : goOn uuid l b = some place) :
    l.activity.phase ≤ place.phase ∧ ∀ txId what, place ≠ .reading txId what := by
  cases b with
  | recv pkt => cases h
  | stop => cases h
  | importModule mod | enter | advance | disconnect txId =>
    obtain ⟨r, hr, rfl⟩ := Option.map_eq_some_iff.mp h
    exact ⟨Loop.phase_le hr, nofun⟩

theorem one_le_phase (l : Loop σ ω) : 1 ≤ l.activity.phase := by
  cases l.activity with
  | importing | listening | calling c => exact Nat.le_refl 1
  | draining | returned | left f => exact Nat.le_succ 1

/-- Behind the handshake, a step that takes no signal moves the thread on. -/
theorem Moves.of_loop {place : VmPlace σ ω} {mailbox : List Packet} (hphase : 1 ≤ s.place.phase)
    (hle : s.place.phase ≤ place.phase) (hplace : ∀ txId what, place ≠ .reading txId what)
    (ha : takes a = false) : Moves s a { s with place, mailbox } := by
  refine .proceeds hle hplace (fun hzero => ?_) (fun _ => ?_) ha
  · rw [hzero] at hphase
    cases hphase
  · exact Nat.pos_iff_ne_zero.mp (lt_of_lt_of_le hphase hle)

/-- Every step does one of these. -/
theorem moves_of_step (h : step uuid env s a = some s') : Moves s a s' := by
  obtain ⟨place, signals, mailbox, stopFlag, stopping, sending⟩ := s
  cases a with
  | register =>
    cases place with
    | connecting =>
      obtain rfl := Option.some.inj h
      exact .proceeds (Nat.le_refl 0) nofun (by simp [VmPlace.phase, Accepts]) (by simp) rfl
    | _ => cases h
  | sendConnect txId sent =>
    cases place with
    | registered =>
      obtain rfl := Option.some.inj h
      cases sent with
      | true => exact .proceeds (Nat.le_refl 0) nofun (by simp [VmPlace.phase, Accepts]) (by simp) rfl
      | false => exact .proceeds (Nat.zero_le 2) nofun (by simp [VmPlace.phase, Accepts]) (by simp) rfl
    | _ => cases h
  | await =>
    cases place with
    | awaiting txId =>
      cases signals with
      | nil => cases h
      | cons what rest =>
        obtain rfl := Option.some.inj h
        exact .awaits rfl rfl rfl
    | _ => cases h
  | giveUp =>
    cases place with
    | awaiting txId =>
      cases signals with
      | nil =>
        obtain rfl := Option.some.inj h
        exact .proceeds (Nat.zero_le 2) nofun (by simp [VmPlace.phase, Accepts]) (by simp) rfl
      | cons what rest => cases h
    | _ => cases h
  | reply =>
    cases place with
    | reading txId what =>
      obtain rfl := Option.some.inj h
      obtain ⟨hne, hiff⟩ := afterReply_phase (σ := σ) env txId mailbox.head?
      refine .proceeds (Nat.zero_le _) ?_ (fun _ => ?_) (fun _ => hne) rfl
      · rintro txId' what' hplace
        rw [hplace] at hne
        exact hne rfl
      · rw [hiff]
        exact ⟨fun hok => ⟨rfl, txId, what, rfl, hok⟩, by rintro ⟨-, _, _, ⟨⟩, hok⟩; exact hok⟩
    | _ => cases h
  | vm b =>
    cases place with
    | running l out =>
      cases out with
      | nil =>
        obtain ⟨place, hgo, rfl⟩ := Option.map_eq_some_iff.mp h
        obtain ⟨hle, hplace⟩ := goOn_phase hgo
        exact .of_loop (one_le_phase l) hle hplace rfl
      | cons pkt out => cases h
    | _ => cases h
  | send sent =>
    cases place with
    | running l out =>
      cases out with
      | nil => cases h
      | cons pkt out =>
        have hsame : Moves (⟨.running l (pkt :: out), signals, mailbox, stopFlag, stopping, sending⟩ :
            VmThread σ ω) (.send sent) ⟨.running l out, signals, mailbox, stopFlag, stopping, sending⟩ :=
          .of_loop (one_le_phase l) (Nat.le_refl _) nofun rfl
        obtain ⟨vm, activity⟩ := l
        cases activity with
        | importing =>
          cases sent with
          | false =>
            obtain rfl := Option.some.inj h
            exact .of_loop (Nat.le_refl 1) (Nat.le_succ 1) nofun rfl
          | true =>
            obtain rfl := Option.some.inj h
            exact hsame
        | listening | calling c | draining | returned | left f =>
          obtain rfl := Option.some.inj h
          exact hsame
    | _ => cases h
  | take =>
    cases place with
    | running l out =>
      cases out with
      | nil =>
        cases signals with
        | nil => cases h
        | cons what rest =>
          obtain ⟨place, hsignal, rfl⟩ := Option.map_eq_some_iff.mp h
          obtain ⟨hone, hle, hstop⟩ := onSignal_phase hsignal
          exact .serves hone hle rfl hstop rfl
      | cons pkt out => cases h
    | _ => cases h
  | fetch =>
    cases place with
    | fetching l =>
      obtain ⟨place, hpacket, rfl⟩ := Option.map_eq_some_iff.mp h
      obtain ⟨hle, hplace⟩ := onPacket_phase hpacket
      exact .of_loop (one_le_phase l) hle hplace rfl
    | _ => cases h
  | requestStop =>
    cases place with
    | connecting | raised =>
      obtain rfl := Option.some.inj h
      exact .arrives (.inl rfl) rfl
    | _ =>
      obtain rfl := Option.some.inj h
      exact .requests rfl
  | notifyStop =>
    obtain ⟨hpos, rfl⟩ := Option.ite_some_none_eq_some.mp h
    obtain ⟨n, rfl⟩ := Nat.exists_eq_add_of_lt hpos
    rw [notify_eq]
    exact .stops (by simp) (notify_signals _ _) rfl
  | deliver pkt =>
    cases hset : Mailbox.set mailbox pkt with
    | none =>
      rw [step, hset] at h
      obtain rfl := Option.some.inj h
      exact .arrives (.inl rfl) rfl
    | some q =>
      rw [step, hset] at h
      obtain rfl := Option.some.inj h
      exact .arrives (.inl rfl) rfl
  | notifyRecv =>
    obtain ⟨-, rfl⟩ := Option.ite_some_none_eq_some.mp h
    rw [notify_eq]
    refine .arrives ?_ rfl
    exact (notify_signals _ _).symm.imp And.left id

/-! ## The invariant -/

/-- Where a stop that was requested is before the end of the handshake: it is to come, or the
handshake has taken it. -/
structure StopTraced (s : VmThread σ ω) : Prop where
  flag : s.StopComing → s.stopFlag = true
  taken : ∀ txId, s.place = .reading txId .stop → s.stopFlag = true
  handshake : s.stopFlag = true → s.place.phase = 0 →
    s.StopComing ∨ ∃ txId, s.place = .reading txId .stop

theorem stopTraced_start : (start : VmThread σ ω).StopTraced where
  flag h := by
    rcases h with h | h
    · cases h
    · cases h
  taken txId h := by cases h
  handshake h := by cases h

/-- One step keeps the invariant. -/
theorem StopTraced.step (hi : s.StopTraced) (h : step uuid env s a = some s') : s'.StopTraced := by
  cases moves_of_step h with
  | @proceeds place mailbox hle hplace haccept hread _ =>
    refine ⟨hi.flag, fun txId hat => absurd hat (hplace txId .stop), fun hflag hzero => .inl ?_⟩
    have hzero₀ : s.place.phase = 0 := Nat.le_zero.mp (hzero ▸ hle)
    exact (hi.handshake hflag hzero₀).resolve_right fun ⟨txId, hat⟩ =>
      hread ⟨txId, .stop, hat⟩ hzero
  | @awaits txId what rest hat hq _ =>
    have hcoming : s.StopComing ↔ what = .stop ∨ Signal.stop ∈ rest ∨ 0 < s.stopping := by
      unfold StopComing
      rw [hq, List.mem_cons, or_assoc, eq_comm]
    refine ⟨fun hc => hi.flag (hcoming.mpr (.inr hc)), ?_, fun hflag _ => ?_⟩
    · rintro _ ⟨⟩
      exact hi.flag (hcoming.mpr (.inl rfl))
    · have hold := (hi.handshake hflag (by rw [hat]; rfl)).resolve_right (by simp [hat])
      rcases hcoming.mp hold with rfl | hrest
      · exact .inr ⟨txId, rfl⟩
      · exact .inl hrest
  | @serves place what rest hone hle hq hstop _ =>
    refine ⟨fun hc => hi.flag ?_, fun txId hat => ?_, fun _ hzero => ?_⟩
    · unfold StopComing at hc ⊢
      rw [hq]
      exact hc.imp_left (List.mem_cons_of_mem what)
    · dsimp only at hat
      rw [hat] at hle
      exact absurd (lt_of_lt_of_le hone hle) (Nat.lt_irrefl 0)
    · exact absurd (lt_of_lt_of_le hone (hle.trans_eq hzero)) (Nat.lt_irrefl 0)
  | requests _ =>
    exact ⟨fun _ => rfl, fun _ _ => rfl, fun _ _ => .inl (.inr (Nat.succ_pos _))⟩
  | @stops signals stopping hn hq _ =>
    have hflag : s.stopFlag = true := hi.flag (.inr (hn ▸ Nat.succ_pos stopping))
    refine ⟨fun _ => hflag, fun _ _ => hflag, fun _ hzero => .inl (.inl ?_)⟩
    rcases hq with rfl | ⟨-, htwo⟩
    · exact List.mem_append_right _ (List.mem_singleton_self _)
    · rw [htwo] at hzero
      cases hzero
  | @arrives signals mailbox sending hq _ =>
    have hmem : Signal.stop ∈ signals ↔ Signal.stop ∈ s.signals := by
      rcases hq with rfl | rfl
      · exact Iff.rfl
      · simp
    have hcoming : ∀ p : Prop, Signal.stop ∈ signals ∨ p ↔ Signal.stop ∈ s.signals ∨ p :=
      fun p => or_congr_left hmem
    exact ⟨fun hc => hi.flag ((hcoming _).mp hc), hi.taken, fun hflag hzero =>
      (hi.handshake hflag hzero).imp_left (hcoming _).mpr⟩

/-! ## The exact condition -/

/-- Inside, a step of another thread or of the loop keeps a stop that is to come. -/
theorem StopKept.step (hi : s.StopTraced) (hk : s.StopKept) (hok : s.HandshakeSparesStop a)
    (h : step uuid env s a = some s') : s'.StopKept := by
  intro hflag hin
  cases moves_of_step h with
  | @proceeds place mailbox hle _ haccept _ _ =>
    rcases Nat.eq_zero_or_pos s.place.phase with hzero | hpos
    · -- The handshake ends, so the condition on its signal is used.
      obtain ⟨rfl, txId, what, hat, haccepts⟩ := (haccept hzero).mp hin
      rcases hi.handshake hflag hzero with hc | ⟨txId', hat'⟩
      · exact hc
      · obtain ⟨rfl, rfl⟩ : txId = txId' ∧ what = .stop := by simpa [hat] using hat'
        exact hok rfl txId hat haccepts
    · exact hk hflag (Nat.le_antisymm (hle.trans_eq hin) hpos)
  | @awaits txId what rest hat _ _ => cases hin
  | @serves place what rest hone hle hq hstop _ =>
    have hold := hk hflag (Nat.le_antisymm (hle.trans_eq hin) hone)
    refine hold.imp_left fun hmem => ?_
    rw [hq] at hmem
    refine (List.mem_cons.mp hmem).resolve_left fun hwhat => ?_
    have htwo := hstop hwhat.symm
    rw [show place.phase = 1 from hin] at htwo
    cases htwo
  | requests _ => exact .inr (Nat.succ_pos _)
  | @stops signals stopping _ hq _ =>
    rcases hq with rfl | ⟨-, htwo⟩
    · exact .inl (List.mem_append_right _ (List.mem_singleton_self _))
    · rw [show s.place.phase = 1 from hin] at htwo
      cases htwo
  | @arrives signals mailbox sending hq _ =>
    refine (hk hflag hin).imp_left fun hmem => ?_
    rcases hq with rfl | rfl
    · exact hmem
    · exact List.mem_append_left _ hmem

/-- A handshake that ends with a stop to come has spared it. -/
theorem HandshakeSparesStop.of_kept (hi : s.StopTraced) (h : step uuid env s a = some s')
    (hk : s'.StopKept) : s.HandshakeSparesStop a := by
  rintro rfl txId hat haccepts
  have hstep : step uuid env s .reply =
      some { s with
        place := afterReply env txId s.mailbox.head?
        mailbox := s.mailbox.tail } := by
    rw [step, hat]
  obtain rfl := Option.some.inj (hstep.symm.trans h)
  exact hk (hi.taken txId hat) ((afterReply_phase env txId s.mailbox.head?).2.mpr haccepts)

/-- The signals are the queue of the thread. -/
theorem fifo_signals : Fifo (step (σ := σ) uuid env) signals takes fun _ => True where
  take s a s' _ _ h ha := by
    cases moves_of_step h with
    | awaits _ hq _ => exact ⟨_, _, [], hq, (List.append_nil _).symm⟩
    | serves _ _ hq _ _ => exact ⟨_, _, [], hq, (List.append_nil _).symm⟩
    | proceeds _ _ _ _ hno | requests hno | stops _ _ hno | arrives _ hno =>
      rw [ha] at hno
      cases hno
  keep s a s' _ _ h ha := by
    cases moves_of_step h with
    | proceeds => exact ⟨[], (List.append_nil _).symm⟩
    | requests => exact ⟨[], (List.append_nil _).symm⟩
    | stops _ hq _ =>
      rcases hq with rfl | ⟨rfl, -⟩
      · exact ⟨_, rfl⟩
      · exact ⟨[], (List.append_nil _).symm⟩
    | arrives hq _ =>
      rcases hq with rfl | rfl
      · exact ⟨[], (List.append_nil _).symm⟩
      · exact ⟨_, rfl⟩
    | awaits _ _ hyes | serves _ _ _ _ hyes =>
      rw [ha] at hyes
      cases hyes

theorem phase_le_step (h : step uuid env s a = some s') : s.place.phase ≤ s'.place.phase := by
  cases moves_of_step h with
  | proceeds hle => exact hle
  | serves _ hle => exact hle
  | awaits hat =>
    rw [hat]
    exact Nat.le_refl 0
  | requests | stops | arrives => exact Nat.le_refl _

theorem phase_le_run {acts : List (VmAct σ ω)} (h : run (step uuid env) s acts = some s') :
    s.place.phase ≤ s'.place.phase := by
  induction acts generalizing s with
  | nil =>
    obtain rfl : s = s' := by simpa using h
    exact Nat.le_refl _
  | cons a acts ih =>
    obtain ⟨s₁, hs, hrest⟩ := Option.bind_eq_some_iff.mp h
    exact (phase_le_step hs).trans (ih hrest)

/-- A stop that is queued makes the VM leave its main loop once the signals in front of it are
taken. -/
theorem leaves (hin : s.Inside) {pre post : List Signal} (hq : s.signals = pre ++ .stop :: post)
    {acts : List (VmAct σ ω)} (hr : run (step uuid env) s acts = some s')
    (hcount : pre.length < acts.countP takes) : ¬ s'.Inside := by
  obtain ⟨before, a, after, s₁, rest, rfl, hbefore, ha, hfront, -⟩ :=
    fifo_signals.serves hq (along_of_forall (fun _ => trivial) acts) hr hcount
  rw [run_append, hbefore, Option.bind_some, run_cons] at hr
  obtain ⟨s₂, hs₂, hafter⟩ := Option.bind_eq_some_iff.mp hr
  have hone : 1 ≤ s₁.place.phase := le_of_eq_of_le hin.symm (phase_le_run hbefore)
  -- The step that takes the stop is behind the handshake.
  have htwo : s₂.place.phase = 2 := by
    cases moves_of_step hs₂ with
    | awaits hat _ _ =>
      rw [hat] at hone
      cases hone
    | serves _ _ hsig hstop _ => exact hstop (List.cons.inj (hsig.symm.trans hfront)).1
    | proceeds _ _ _ _ hno | requests hno | stops _ _ hno | arrives _ hno =>
      rw [ha] at hno
      cases hno
  intro hin'
  have hle := phase_le_run hafter
  rw [htwo, hin'] at hle
  exact absurd hle (by decide)

/-- In a run, a stop that was requested is to come in every state in which the VM imports modules or
is in its main loop, exactly when no handshake that ends with the response has taken the only stop.
A stop that is in the queue makes the VM leave. -/
theorem stop_kept_iff (uuid : ℕ → TxId) (env : ω) :
    (∀ acts : List (VmAct σ ω), Meets (step uuid env) HandshakeSparesStop start acts ↔
      Along (step uuid env) StopKept start acts) ∧
    ∀ (s s' : VmThread σ ω) (acts : List (VmAct σ ω)) (pre post : List Signal), s.Inside →
      s.signals = pre ++ .stop :: post → run (step uuid env) s acts = some s' →
      pre.length < acts.countP takes → ¬ s'.Inside := by
  refine ⟨fun acts => ?_, fun s s' acts pre post hin hq hr hcount => leaves hin hq hr hcount⟩
  refine meets_iff_along (fun s a s' (hi : s.StopTraced) h => hi.step h) ?_ ?_ ?_ stopTraced_start ?_
  · exact fun s a s' hi hk hok h => hk.step hi hok h
  · exact fun s a s' hi h hk => .of_kept hi h hk
  · rintro s a hnone rfl txId hat -
    rw [step, hat] at hnone
    cases hnone
  · intro hflag
    cases hflag

/-- `vm_stop` is called while the handshake waits, and the response arrives behind the stop signal. -/
def stopInHandshake : List (VmAct Unit Unit) :=
  [.register, .sendConnect "t" true, .requestStop, .notifyStop, .deliver (.respond "t"), .await,
    .reply, .vm .enter, .notifyRecv, .take, .fetch]

/-- The handshake takes the stop for the response's signal and accepts the response. The VM ends up
in its main loop with the flag set and an empty queue, and no call of `vm_stop` is running. -/
theorem stopInHandshake_lost : ∃ s : VmThread Unit Unit,
    run (step (fun _ => "u") ()) start stopInHandshake = some s ∧ s.stopFlag = true ∧ s.Inside ∧
      s.signals = [] ∧ s.stopping = 0 ∧ ¬ s.StopKept := by
  refine ⟨_, rfl, rfl, rfl, rfl, rfl, fun h => ?_⟩
  rcases h rfl rfl with hmem | hpos
  · cases hmem
  · cases hpos

/-- A VM in its main loop, with a stop behind the signal of a packet. -/
def stopQueued : VmThread Unit Unit :=
  ⟨.running ⟨.empty (), .listening⟩ [], [.recv, .stop], [.respond "t"], true, 0, 0⟩

/-- Both halves, for the run that loses the stop and for a VM that takes it. -/
theorem stop_kept_iff_stopQueued :
    (Meets (step (fun _ => "u") ()) HandshakeSparesStop start stopInHandshake ↔
      Along (step (fun _ => "u") ()) StopKept (start : VmThread Unit Unit) stopInHandshake) ∧
    ∃ s', run (step (fun _ => "u") ()) stopQueued [.take, .fetch, .take] = some s' ∧ ¬ s'.Inside :=
  ⟨(stop_kept_iff (fun _ => "u") ()).1 stopInHandshake, _, rfl,
    (stop_kept_iff (fun _ => "u") ()).2 stopQueued _ [.take, .fetch, .take] [.recv] [] rfl rfl rfl
      (by decide)⟩

end VmThread

end Ailoy
