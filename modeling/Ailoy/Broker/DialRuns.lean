import Ailoy.Broker.Dial

/-!
# When a constructed client can send

`connect` returns true once the socket is in the acceptor's mailbox, or once it has left the wait
list, and nothing in the constructor waits for `accept`. So a constructed client can send if and
only if the broker's thread happened to be faster (`canSend_iff`). `Traced` is the invariant: the
members of a socket are set while `accept` is at it, and `peer_notify`, the last of them, only then.
-/

namespace Ailoy

open Transition

theorem Attachment.isAttached_iff {a : Attachment} :
    a.isAttached = true ↔ a.peerMailbox = true ∧ a.peerName = true ∧ a.peerNotify = true := by
  unfold Attachment.isAttached
  rw [Bool.and_eq_true, Bool.and_eq_true, and_assoc]

/-- The places of the broker's thread behind the first assignment of `accept`. -/
def BrokerAt.isAttaching {σ : Type*} : BrokerAt σ → Bool
  | .setName _ => true
  | .setNotify _ => true
  | .returned _ => true
  | _ => false

namespace Dial

variable {σ α : Type*} [DecidableEq σ] {s s' : Dial σ α} {a : DialAct σ α} {c : σ}

/-- Every client whose constructor has returned is attached, and what it sends to a peer that is
alive and has room is sent. -/
def CanSend (s : Dial σ α) : Prop :=
  ∀ c, s.client c = .constructed → (s.socket c).isAttached = true ∧
    ∀ msg, s.alive c = true → (s.inbox c).length < Mailbox.limit → (s.send c msg).2 = true

/-- A constructor returns only when `accept` has returned for its socket. -/
def AcceptedFirst (s : Dial σ α) (a : DialAct σ α) : Prop :=
  ∀ c, a = .finish c → s.client c = .connected → s.Accepted c

/-- An attached socket sends. -/
theorem send_of_isAttached (h : (s.socket c).isAttached = true) (halive : s.alive c = true)
    (hroom : (s.inbox c).length < Mailbox.limit) (msg : α) : (s.send c msg).2 = true := by
  unfold send
  rw [if_pos ⟨h, halive⟩, Mailbox.set_of_lt hroom]

theorem canSend_iff_attached :
    s.CanSend ↔ ∀ c, s.client c = .constructed → (s.socket c).isAttached = true :=
  ⟨fun h c hc => (h c hc).1, fun h c hc =>
    ⟨h c hc, fun msg halive hroom => send_of_isAttached (h c hc) halive hroom msg⟩⟩

/-! ## What a step can do -/

section Frames

omit [DecidableEq σ]

@[simp] theorem requestAccepting_socket : (s.requestAccepting c).1.socket = s.socket := by
  unfold requestAccepting
  dsimp only
  split <;> rfl

@[simp] theorem requestAccepting_accepted : (s.requestAccepting c).1.accepted = s.accepted := by
  unfold requestAccepting
  dsimp only
  split <;> rfl

@[simp] theorem requestAccepting_broker : (s.requestAccepting c).1.broker = s.broker := by
  unfold requestAccepting
  dsimp only
  split <;> rfl

@[simp] theorem requestAccepting_client : (s.requestAccepting c).1.client = s.client := by
  unfold requestAccepting
  dsimp only
  split <;> rfl

end Frames

/-- `send` changes the mailbox of the peer only. -/
theorem send_frame (s : Dial σ α) (c : σ) (msg : α) :
    ∃ inbox, (s.send c msg).1 = { s with inbox } := by
  unfold send
  split
  · split
    · exact ⟨s.inbox, rfl⟩
    · exact ⟨_, rfl⟩
  · exact ⟨s.inbox, rfl⟩

/-- Where a step leaves the clients: only `finish` makes one constructed. -/
def MovesClient (s : Dial σ α) (a : DialAct σ α) (client : σ → ClientAt) : Prop :=
  client = s.client ∨ ∃ c place, client = Function.update s.client c place ∧
    (place = .constructed → a = .finish c ∧ s.client c = .connected)

/-- Only `attach` sets members and accepts. -/
theorem step_frame (h : s.step a = some s') (ha : a ≠ .attach) :
    s'.socket = s.socket ∧ s'.accepted = s.accepted ∧
      (s'.broker = s.broker ∨ s.broker.isAttaching = false ∧ s'.broker.isAttaching = false) ∧
      s.MovesClient a s'.client := by
  cases a with
  | attach => exact absurd rfl ha
  | construct =>
    obtain ⟨hat, rfl⟩ := Option.ite_some_none_eq_some.mp h
    exact ⟨rfl, rfl, .inr ⟨by rw [hat]; rfl, rfl⟩, .inl rfl⟩
  | setMonitor =>
    obtain ⟨hat, rfl⟩ := Option.ite_some_none_eq_some.mp h
    exact ⟨rfl, rfl, .inr ⟨by rw [hat]; rfl, rfl⟩, .inl rfl⟩
  | offer =>
    unfold step at h
    dsimp only at h
    split at h
    · rename_i c rest hat
      obtain rfl := Option.some.inj h
      exact ⟨requestAccepting_socket, requestAccepting_accepted, .inr ⟨by rw [hat]; rfl, rfl⟩,
        .inl requestAccepting_client⟩
    · cases h
  | release =>
    obtain ⟨hat, rfl⟩ := Option.ite_some_none_eq_some.mp h
    exact ⟨rfl, rfl, .inr ⟨by rw [hat]; rfl, rfl⟩, .inl rfl⟩
  | accept =>
    obtain ⟨⟨hat, -⟩, h⟩ := Option.ite_none_right_eq_some.mp h
    split at h
    · obtain rfl := Option.some.inj h
      exact ⟨rfl, rfl, .inl rfl, .inl rfl⟩
    · obtain rfl := Option.some.inj h
      exact ⟨rfl, rfl, .inr ⟨by rw [hat]; rfl, rfl⟩, .inl rfl⟩
  | read c =>
    obtain ⟨-, rfl⟩ := Option.ite_some_none_eq_some.mp h
    exact ⟨rfl, rfl, .inl rfl, .inl rfl⟩
  | drop c =>
    obtain rfl := Option.some.inj h
    exact ⟨rfl, rfl, .inl rfl, .inl rfl⟩
  | dial c =>
    obtain ⟨-, h⟩ := Option.ite_none_right_eq_some.mp h
    split at h
    · obtain rfl := Option.some.inj h
      exact ⟨rfl, rfl, .inl rfl, .inr ⟨c, _, rfl, fun hplace => ClientAt.noConfusion hplace⟩⟩
    · obtain rfl := Option.some.inj h
      refine ⟨requestAccepting_socket, requestAccepting_accepted, .inl requestAccepting_broker,
        .inr ⟨c, _, rfl, fun hplace => ?_⟩⟩
      split at hplace
      · cases hplace
      · cases hplace
  | wake c =>
    obtain ⟨-, rfl⟩ := Option.ite_some_none_eq_some.mp h
    exact ⟨rfl, rfl, .inl rfl, .inr ⟨c, _, rfl, fun hplace => ClientAt.noConfusion hplace⟩⟩
  | timeout c =>
    obtain ⟨-, rfl⟩ := Option.ite_some_none_eq_some.mp h
    exact ⟨rfl, rfl, .inl rfl, .inr ⟨c, _, rfl, fun hplace => ClientAt.noConfusion hplace⟩⟩
  | finish c =>
    obtain ⟨hc, rfl⟩ := Option.ite_some_none_eq_some.mp h
    exact ⟨rfl, rfl, .inl rfl, .inr ⟨c, _, rfl, fun _ => ⟨rfl, hc⟩⟩⟩
  | send c msg =>
    obtain ⟨-, rfl⟩ := Option.ite_some_none_eq_some.mp h
    obtain ⟨inbox, hsend⟩ := send_frame s c msg
    rw [hsend]
    exact ⟨rfl, rfl, .inl rfl, .inl rfl⟩

/-- What `attach` does: the three assignments in order, and then the loop's own. -/
theorem attach_cases (h : s.step .attach = some s') : s'.client = s.client ∧ ∃ c,
    (s.broker = .setMailbox c ∧ s'.broker = .setName c ∧ s'.accepted = s.accepted ∧
      s'.socket = Function.update s.socket c { s.socket c with peerMailbox := true }) ∨
    (s.broker = .setName c ∧ s'.broker = .setNotify c ∧ s'.accepted = s.accepted ∧
      s'.socket = Function.update s.socket c { s.socket c with peerName := true }) ∨
    (s.broker = .setNotify c ∧ s'.broker = .returned c ∧ s'.accepted = s.accepted ∧
      s'.socket = Function.update s.socket c { s.socket c with peerNotify := true }) ∨
    (s.broker = .returned c ∧ s'.broker = .loop ∧ s'.accepted = s.accepted ++ [c] ∧
      s'.socket = s.socket) := by
  unfold step at h
  dsimp only at h
  split at h
  · rename_i c hat
    obtain rfl := Option.some.inj h
    exact ⟨rfl, c, .inl ⟨hat, rfl, rfl, rfl⟩⟩
  · rename_i c hat
    obtain rfl := Option.some.inj h
    exact ⟨rfl, c, .inr (.inl ⟨hat, rfl, rfl, rfl⟩)⟩
  · rename_i c hat
    obtain rfl := Option.some.inj h
    exact ⟨rfl, c, .inr (.inr (.inl ⟨hat, rfl, rfl, rfl⟩))⟩
  · rename_i c hat
    obtain rfl := Option.some.inj h
    exact ⟨rfl, c, .inr (.inr (.inr ⟨hat, rfl, rfl, rfl⟩))⟩
  · cases h

/-- Only `finish` makes a client constructed. -/
theorem step_constructed (h : s.step a = some s') (hc : s'.client c = .constructed) :
    s.client c = .constructed ∨ a = .finish c ∧ s.client c = .connected := by
  by_cases ha : a = .attach
  · subst ha
    rw [(attach_cases h).1] at hc
    exact .inl hc
  · obtain ⟨-, -, -, hclient | ⟨x, place, hclient, hplace⟩⟩ := step_frame h ha
    · rw [hclient] at hc
      exact .inl hc
    · rw [hclient] at hc
      by_cases hcx : c = x
      · rw [hcx, Function.update_self] at hc
        rw [hcx]
        exact .inr (hplace hc)
      · rw [Function.update_of_ne hcx] at hc
        exact .inl hc

/-! ## The invariant -/

/-- The members of the socket that `accept` is at are set so far, those of accepted sockets are all
set, and `peer_notify` is set of no others. -/
structure Traced (s : Dial σ α) : Prop where
  accepted : ∀ c, s.Accepted c → (s.socket c).isAttached = true
  notify : ∀ c, (s.socket c).peerNotify = true → s.Accepted c
  setName : ∀ c, s.broker = .setName c → (s.socket c).peerMailbox = true
  setNotify : ∀ c, s.broker = .setNotify c →
    (s.socket c).peerMailbox = true ∧ (s.socket c).peerName = true

omit [DecidableEq σ] in
/-- A socket is attached when `accept` has returned for it. -/
theorem Traced.isAttached_iff (h : s.Traced) (c : σ) :
    (s.socket c).isAttached = true ↔ s.Accepted c := by
  exact ⟨fun hc => h.notify c (Attachment.isAttached_iff.mp hc).2.2, h.accepted c⟩

omit [DecidableEq σ] in
theorem traced_start : (start : Dial σ α).Traced where
  accepted c hc := by
    rcases hc with hc | hc
    · cases hc
    · cases hc
  notify c hc := by cases hc
  setName c hc := by cases hc
  setNotify c hc := by cases hc

omit [DecidableEq σ] in
/-- A step that sets no member keeps the invariant. -/
theorem Traced.of_frame (h : s.Traced) (hsocket : s'.socket = s.socket)
    (haccepted : s'.accepted = s.accepted)
    (hbroker : s'.broker = s.broker ∨ s.broker.isAttaching = false ∧ s'.broker.isAttaching = false) :
    s'.Traced := by
  have hiff : ∀ c, s'.Accepted c ↔ s.Accepted c := by
    intro c
    unfold Accepted
    rw [haccepted]
    rcases hbroker with hsame | ⟨hold, hnew⟩
    · rw [hsame]
    · refine or_congr_right (iff_of_false (fun hat => ?_) fun hat => ?_)
      · rw [hat] at hnew
        cases hnew
      · rw [hat] at hold
        cases hold
  refine ⟨fun c hc => ?_, fun c hc => ?_, fun c hc => ?_, fun c hc => ?_⟩
  · rw [hsocket]
    exact h.accepted c ((hiff c).mp hc)
  · rw [hsocket] at hc
    exact (hiff c).mpr (h.notify c hc)
  · rw [hsocket]
    rcases hbroker with hsame | ⟨-, hnew⟩
    · exact h.setName c (hsame ▸ hc)
    · rw [hc] at hnew
      cases hnew
  · rw [hsocket]
    rcases hbroker with hsame | ⟨-, hnew⟩
    · exact h.setNotify c (hsame ▸ hc)
    · rw [hc] at hnew
      cases hnew

/-- An assignment that comes before the last one keeps the invariant, where the places fit. -/
theorem Traced.of_update (h : s.Traced) {m : Attachment}
    (hiff : ∀ x, s'.Accepted x ↔ s.Accepted x) (hsock : s'.socket = Function.update s.socket c m)
    (hattached : (s.socket c).isAttached = true → m.isAttached = true)
    (hnotify : m.peerNotify = (s.socket c).peerNotify)
    (hname : ∀ x, s'.broker = .setName x → (s'.socket x).peerMailbox = true)
    (hlast : ∀ x, s'.broker = .setNotify x →
      (s'.socket x).peerMailbox = true ∧ (s'.socket x).peerName = true) : s'.Traced := by
  refine ⟨fun x hx => ?_, fun x hx => ?_, hname, hlast⟩
  · have hold := h.accepted x ((hiff x).mp hx)
    rw [hsock]
    by_cases hxc : x = c
    · rw [hxc] at hold ⊢
      rw [Function.update_self]
      exact hattached hold
    · rw [Function.update_of_ne hxc]
      exact hold
  · refine (hiff x).mpr (h.notify x ?_)
    rw [hsock] at hx
    by_cases hxc : x = c
    · rw [hxc, Function.update_self, hnotify] at hx
      rw [hxc]
      exact hx
    · rwa [Function.update_of_ne hxc] at hx

/-- `attach` keeps the invariant. -/
theorem Traced.attach (h : s.Traced) (hs : s.step .attach = some s') : s'.Traced := by
  obtain ⟨-, c, ⟨hold, hnew, hacc, hsock⟩ | ⟨hold, hnew, hacc, hsock⟩ | ⟨hold, hnew, hacc, hsock⟩ |
    ⟨hold, hnew, hacc, hsock⟩⟩ := attach_cases hs
  · -- `peer_mailbox` is set, and `peer_name` is next.
    have hiff : ∀ x, s'.Accepted x ↔ s.Accepted x := by
      intro x
      unfold Accepted
      rw [hacc, hnew, hold]
      simp
    refine h.of_update hiff hsock (fun hc => ?_) rfl (fun x hx => ?_) fun x hx => ?_
    · obtain ⟨-, hname, hnotify⟩ := Attachment.isAttached_iff.mp hc
      exact Attachment.isAttached_iff.mpr ⟨rfl, hname, hnotify⟩
    · rw [hnew] at hx
      cases hx
      rw [hsock, Function.update_self]
    · rw [hnew] at hx
      cases hx
  · -- `peer_name` is set, and `peer_notify` is next.
    have hiff : ∀ x, s'.Accepted x ↔ s.Accepted x := by
      intro x
      unfold Accepted
      rw [hacc, hnew, hold]
      simp
    refine h.of_update hiff hsock (fun hc => ?_) rfl (fun x hx => ?_) fun x hx => ?_
    · obtain ⟨hmailbox, -, hnotify⟩ := Attachment.isAttached_iff.mp hc
      exact Attachment.isAttached_iff.mpr ⟨hmailbox, rfl, hnotify⟩
    · rw [hnew] at hx
      cases hx
    · rw [hnew] at hx
      cases hx
      rw [hsock, Function.update_self]
      exact ⟨h.setName c hold, rfl⟩
  · -- the last member makes the socket attached, and `accept` returns
    have hiff : ∀ x, s'.Accepted x ↔ s.Accepted x ∨ x = c := by
      intro x
      unfold Accepted
      rw [hacc, hnew, hold]
      simp [eq_comm]
    obtain ⟨hmailbox, hname⟩ := h.setNotify c hold
    refine ⟨fun x hx => ?_, fun x hx => ?_, fun x hx => ?_, fun x hx => ?_⟩
    · rw [hsock]
      by_cases hxc : x = c
      · rw [hxc, Function.update_self]
        exact Attachment.isAttached_iff.mpr ⟨hmailbox, hname, rfl⟩
      · rw [Function.update_of_ne hxc]
        exact h.accepted x (((hiff x).mp hx).resolve_right hxc)
    · by_cases hxc : x = c
      · exact (hiff x).mpr (.inr hxc)
      · rw [hsock, Function.update_of_ne hxc] at hx
        exact (hiff x).mpr (.inl (h.notify x hx))
    · rw [hnew] at hx
      cases hx
    · rw [hnew] at hx
      cases hx
  · -- the loop keeps the socket that was accepted
    have hiff : ∀ x, s'.Accepted x ↔ s.Accepted x := by
      intro x
      unfold Accepted
      rw [hacc, hnew, hold, List.mem_append, List.mem_singleton]
      simp [eq_comm]
    refine ⟨fun x hx => ?_, fun x hx => ?_, fun x hx => ?_, fun x hx => ?_⟩
    · rw [hsock]
      exact h.accepted x ((hiff x).mp hx)
    · rw [hsock] at hx
      exact (hiff x).mpr (h.notify x hx)
    · rw [hnew] at hx
      cases hx
    · rw [hnew] at hx
      cases hx

/-- One step keeps the invariant. -/
theorem Traced.step (h : s.Traced) (hs : s.step a = some s') : s'.Traced := by
  by_cases ha : a = .attach
  · subst ha
    exact h.attach hs
  · obtain ⟨hsocket, haccepted, hbroker, -⟩ := step_frame hs ha
    exact h.of_frame hsocket haccepted hbroker

/-! ## Runs -/

/-- A socket that is accepted stays so. -/
theorem accepted_step (hs : s.step a = some s') (hc : s.Accepted c) : s'.Accepted c := by
  have hlist : ∀ {place : BrokerAt σ}, s.broker = place → place ≠ .returned c → c ∈ s.accepted := by
    intro place hat hne
    exact hc.resolve_right fun hreturned => hne (hat.symm.trans hreturned)
  by_cases ha : a = .attach
  · subst ha
    obtain ⟨-, x, ⟨hold, -, hacc, -⟩ | ⟨hold, -, hacc, -⟩ | ⟨hold, -, hacc, -⟩ |
      ⟨hold, -, hacc, -⟩⟩ := attach_cases hs
    · exact .inl (hacc ▸ hlist hold (by simp))
    · exact .inl (hacc ▸ hlist hold (by simp))
    · exact .inl (hacc ▸ hlist hold (by simp))
    · refine .inl ?_
      rw [hacc, List.mem_append, List.mem_singleton]
      refine hc.imp id fun hreturned => ?_
      rw [hold] at hreturned
      exact (BrokerAt.returned.inj hreturned).symm
  · obtain ⟨-, hacc, hsame | ⟨hold, -⟩, -⟩ := step_frame hs ha
    · unfold Accepted
      rw [hacc, hsame]
      exact hc
    · refine .inl (hacc ▸ hc.resolve_right fun hreturned => ?_)
      rw [hreturned] at hold
      cases hold

/-- An attached socket stays attached. -/
theorem Traced.attached_step (h : s.Traced) (hs : s.step a = some s')
    (hc : (s.socket c).isAttached = true) : (s'.socket c).isAttached = true :=
  (h.step hs).accepted c (accepted_step hs ((h.isAttached_iff c).mp hc))

/-- The exact condition: every run in which constructors return only behind `accept` lets every
constructed client send all along, and no other run does. -/
theorem canSend_iff (acts : List (DialAct σ α)) :
    Meets step AcceptedFirst start acts ↔ Along step CanSend start acts := by
  refine meets_iff_along (fun s a s' (h : s.Traced) hs => h.step hs) ?_ ?_ ?_ traced_start ?_
  · intro s a s' h hP hok hs
    rw [canSend_iff_attached] at hP ⊢
    intro c hc
    rcases step_constructed hs hc with hold | ⟨rfl, hconnected⟩
    · exact h.attached_step hs (hP c hold)
    · exact h.attached_step hs (h.accepted c (hok c rfl hconnected))
  · rintro s a s' h hs hP c rfl hconnected
    obtain ⟨-, rfl⟩ := Option.ite_some_none_eq_some.mp hs
    refine (h.isAttached_iff c).mp ((hP c ?_).1)
    exact Function.update_self c _ _
  · rintro s a hs c rfl hconnected
    have hfinish : s.step (.finish c) =
        some { s with client := Function.update s.client c .constructed } := if_pos hconnected
    rw [hfinish] at hs
    cases hs
  · intro c hc
    cases hc

/-- A client that finds the acceptor registered, and one that leaves the wait list, are constructed
before the broker's thread accepts them, and send nothing. When the acceptor has no monitor yet, the
signal is lost as well, and the broker does not accept the socket that is in its mailbox. -/
theorem dialed_not_canSend :
    (∃ s : Dial ℕ ℕ, run step start [.construct, .setMonitor, .release, .dial 0, .finish 0] = some s ∧
      ¬ s.CanSend ∧ s.client 0 = .constructed ∧ (s.send 0 7).2 = false) ∧
    (∃ s : Dial ℕ ℕ, run step start
        [.dial 0, .construct, .setMonitor, .offer, .release, .wake 0, .finish 0] = some s ∧
      ¬ s.CanSend ∧ s.client 0 = .constructed ∧ (s.send 0 7).2 = false) ∧
    ∃ s : Dial ℕ ℕ, run step start [.construct, .dial 0, .setMonitor, .release, .finish 0] = some s ∧
      ¬ s.CanSend ∧ s.mailbox = [0] ∧ s.step .accept = none := by
  refine ⟨⟨_, rfl, fun h => ?_, rfl, rfl⟩, ⟨_, rfl, fun h => ?_, rfl, rfl⟩,
    ⟨_, rfl, fun h => ?_, rfl, rfl⟩⟩
  · exact absurd (h 0 rfl).1 (by decide)
  · exact absurd (h 0 rfl).1 (by decide)
  · exact absurd (h 0 rfl).1 (by decide)

/-- The first run with a broker's thread that is faster. -/
example : ∃ s : Dial ℕ ℕ, run step start [.construct, .setMonitor, .release, .dial 0, .accept,
    .attach, .attach, .attach, .finish 0] = some s ∧ (s.send 0 7).2 = true :=
  ⟨_, rfl, rfl⟩

end Dial

end Ailoy
