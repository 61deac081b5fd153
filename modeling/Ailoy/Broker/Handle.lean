import Ailoy.Core.Packet
import Ailoy.Lib.UnorderedMap
import Mathlib.Data.Finset.Basic

/-!
# The broker's packet handling

The three tables of `broker_start` in `broker/src/broker.cpp`, and the switch over the packet type
that one iteration of its loop runs on a loaded packet. A socket is its `myname`, which no other
socket of the process shares, so `sockets` is the set of its keys and the other two tables map to
names. A case of the switch sends at most one packet: an answer of its own to the sender, or the
received message itself to another socket.
-/

namespace Ailoy

/-- `notify_t::myname` of a socket. -/
abbrev SocketName := String

/-- The tables of `broker_start`: `sockets`, `subscriptions`, and `transactions`. -/
structure Broker where
  sockets : Finset SocketName
  subscriptions : UnorderedMap Channel SocketName
  transactions : UnorderedMap TxId SocketName

/-- What a case of the switch sends. -/
inductive Send
  /-- `socket->send(dump_packet<..>(..))`: an answer to the sender. -/
  | reply (pkt : Packet)
  /-- `target_it->second->send(msg)`: the received message, to another socket. -/
  | forward (target : SocketName)

namespace Broker

/-- The tables at the start of `broker_start`. -/
def empty : Broker := ⟨∅, ∅, ∅⟩

/-- The `accept` case of the loop: the new socket is registered. -/
def accept (b : Broker) (socket : SocketName) : Broker :=
  { b with sockets := insert socket b.sockets }

/-- The `disconnect` case: the sender's subscriptions and its socket are dropped. -/
def onDisconnect (b : Broker) (socket : SocketName) (txId : TxId) : Broker × Option Send :=
  let channelsToBeDeleted := UnorderedMap.keysOf b.subscriptions socket
  ({ b with
      subscriptions := UnorderedMap.eraseAll b.subscriptions channelsToBeDeleted
      sockets := b.sockets.erase socket },
    some (.reply (.respond txId)))

/-- The `subscribe` case. -/
def onSubscribe (b : Broker) (socket : SocketName) (txId : TxId) (channel : Channel) :
    Broker × Option Send :=
  match b.subscriptions.lookup channel with
  | some _ => (b, some (.reply (.respondError txId "Subscription already occupied by \x7b\x7d")))
  | none =>
    ({ b with subscriptions := b.subscriptions.insert channel socket },
      some (.reply (.respond txId)))

/-- The `unsubscribe` case. -/
def onUnsubscribe (b : Broker) (socket : SocketName) (txId : TxId) (channel : Channel) :
    Broker × Option Send :=
  match b.subscriptions.lookup channel with
  | none => (b, some (.reply (.respondError txId "Subscription not exists \x7b\x7d")))
  | some owner =>
    if owner ≠ socket then
      (b, some (.reply
        (.respondError txId "Trying to remove subscription made by other node")))
    else
      ({ b with subscriptions := b.subscriptions.erase channel },
        some (.reply (.respond txId)))

/-- The `execute` case: the sender becomes the requester of the transaction. -/
def onExecute (b : Broker) (socket : SocketName) (txId : TxId) (channel : Channel) :
    Broker × Option Send :=
  match b.subscriptions.lookup channel with
  | none =>
    (b, some (.reply
      (.respondExecuteError txId 0 "There is no channel can handle this request")))
  | some target =>
    ({ b with transactions := b.transactions.insert txId socket }, some (.forward target))

/-- The `respond_execute` case: a packet of an open transaction goes to its requester, and a
finishing one closes the transaction. -/
def onRespondExecute (b : Broker) (txId : TxId) (finish : Bool) : Broker × Option Send :=
  match b.transactions.lookup txId with
  | none => (b, none)
  | some target =>
    if finish then
      ({ b with transactions := b.transactions.erase txId }, some (.forward target))
    else
      (b, some (.forward target))

/-- The handling of a loaded packet from `socket`: the log line, and the switch over its type. -/
def handle (b : Broker) (socket : SocketName) (pkt : Packet) :
    Except Fault (Broker × Option Send) := do
  let txId ← pkt.getTxId
  let _ ← pkt.describe
  match pkt.ptype with
  | .connect => return (b, some (.reply (.respond txId)))
  | .disconnect => return b.onDisconnect socket txId
  | .subscribe => do
    let channel ← pkt.getChannel
    return b.onSubscribe socket txId channel
  | .unsubscribe => do
    let channel ← pkt.getChannel
    return b.onUnsubscribe socket txId channel
  | .execute => do
    let channel ← pkt.getChannel
    return b.onExecute socket txId channel
  | .respondExecute => do
    let finish ← pkt.boolHeader 2
    return b.onRespondExecute txId finish
  | .respond | .unknown _ => return (b, none)

section Tables

variable (b : Broker) (socket : SocketName) (txId : TxId) (channel : Channel) (finish : Bool)

/-- After a disconnect, the subscriptions are those of the other sockets. -/
theorem subscriptions_onDisconnect {ch : Channel} {s : SocketName} :
    (b.onDisconnect socket txId).1.subscriptions.lookup ch = some s ↔
      b.subscriptions.lookup ch = some s ∧ s ≠ socket := by
  simp only [onDisconnect, UnorderedMap.lookup_eraseAll, UnorderedMap.mem_keysOf]
  split_ifs with h
  · simp only [h, Option.some.injEq, false_iff, not_and, not_not]
    exact Eq.symm
  · constructor
    · rintro hs
      exact ⟨hs, fun he => h (he ▸ hs)⟩
    · exact And.left

/-- After a subscribe, a channel that was free belongs to the sender. -/
theorem subscriptions_onSubscribe (ch : Channel) :
    (b.onSubscribe socket txId channel).1.subscriptions.lookup ch =
      (b.subscriptions.lookup ch).or (if ch = channel then some socket else none) := by
  unfold onSubscribe
  split
  · rename_i owner hown
    split_ifs with h
    · subst h
      rw [hown]
      rfl
    · simp
  · rename_i hfree
    rw [UnorderedMap.lookup_insert_eq]
    split_ifs with h
    · subst h
      rw [hfree]
      rfl
    · simp

@[simp] theorem sockets_onSubscribe :
    (b.onSubscribe socket txId channel).1.sockets = b.sockets := by
  unfold onSubscribe
  split <;> rfl

@[simp] theorem transactions_onSubscribe :
    (b.onSubscribe socket txId channel).1.transactions = b.transactions := by
  unfold onSubscribe
  split <;> rfl

/-- After an unsubscribe, a channel of the sender is free, and no other channel changes. -/
theorem subscriptions_onUnsubscribe (ch : Channel) :
    (b.onUnsubscribe socket txId channel).1.subscriptions.lookup ch =
      if ch = channel ∧ b.subscriptions.lookup ch = some socket then none
      else b.subscriptions.lookup ch := by
  unfold onUnsubscribe
  split
  · rename_i hfree
    rw [if_neg]
    rintro ⟨rfl, h⟩
    simp [hfree] at h
  · rename_i owner hown
    by_cases ho : owner = socket
    · subst ho
      rw [if_neg (not_not.mpr rfl), UnorderedMap.lookup_erase_eq]
      by_cases hc : ch = channel
      · subst hc
        simp [hown]
      · simp [hc]
    · rw [if_pos ho, if_neg]
      rintro ⟨rfl, h⟩
      exact ho (Option.some.inj (hown.symm.trans h))

@[simp] theorem sockets_onUnsubscribe :
    (b.onUnsubscribe socket txId channel).1.sockets = b.sockets := by
  unfold onUnsubscribe
  split
  · rfl
  · split <;> rfl

@[simp] theorem transactions_onUnsubscribe :
    (b.onUnsubscribe socket txId channel).1.transactions = b.transactions := by
  unfold onUnsubscribe
  split
  · rfl
  · split <;> rfl

/-- An execute opens its transaction for the sender when its channel has an owner. -/
theorem transactions_onExecute (t : TxId) :
    (b.onExecute socket txId channel).1.transactions.lookup t =
      if t = txId ∧ (b.subscriptions.lookup channel).isSome then some socket
      else b.transactions.lookup t := by
  unfold onExecute
  split
  · rename_i hnone
    simp [hnone]
  · rename_i target htarget
    rw [UnorderedMap.lookup_insert_eq]
    simp [htarget]

@[simp] theorem sockets_onExecute :
    (b.onExecute socket txId channel).1.sockets = b.sockets := by
  unfold onExecute
  split <;> rfl

@[simp] theorem subscriptions_onExecute :
    (b.onExecute socket txId channel).1.subscriptions = b.subscriptions := by
  unfold onExecute
  split <;> rfl

/-- A response closes its transaction when it carries the finish flag. -/
theorem transactions_onRespondExecute (t : TxId) :
    (b.onRespondExecute txId finish).1.transactions.lookup t =
      if t = txId ∧ finish = true then none else b.transactions.lookup t := by
  unfold onRespondExecute
  split
  · rename_i hnone
    split_ifs with h
    · rw [h.1, hnone]
    · rfl
  · cases finish
    · simp
    · simp [UnorderedMap.lookup_erase_eq]

@[simp] theorem sockets_onRespondExecute :
    (b.onRespondExecute txId finish).1.sockets = b.sockets := by
  unfold onRespondExecute
  split
  · rfl
  · split <;> rfl

@[simp] theorem subscriptions_onRespondExecute :
    (b.onRespondExecute txId finish).1.subscriptions = b.subscriptions := by
  unfold onRespondExecute
  split
  · rfl
  · split <;> rfl

end Tables

/-- What the handling of a packet can do when it returns, one constructor for each case of the
switch. -/
inductive Handles (b : Broker) (socket : SocketName) (pkt : Packet) :
    Broker × Option Send → Prop
  | connect {txId : TxId} : pkt.ptype = .connect → pkt.getTxId = .ok txId →
      Handles b socket pkt (b, some (.reply (.respond txId)))
  | disconnect {txId : TxId} : pkt.ptype = .disconnect → pkt.getTxId = .ok txId →
      Handles b socket pkt (b.onDisconnect socket txId)
  | subscribe {txId : TxId} {channel : Channel} : pkt.ptype = .subscribe →
      pkt.getTxId = .ok txId → pkt.getChannel = .ok channel →
      Handles b socket pkt (b.onSubscribe socket txId channel)
  | unsubscribe {txId : TxId} {channel : Channel} : pkt.ptype = .unsubscribe →
      pkt.getTxId = .ok txId → pkt.getChannel = .ok channel →
      Handles b socket pkt (b.onUnsubscribe socket txId channel)
  | execute {txId : TxId} {channel : Channel} : pkt.ptype = .execute →
      pkt.getTxId = .ok txId → pkt.getChannel = .ok channel →
      Handles b socket pkt (b.onExecute socket txId channel)
  | respondExecute {txId : TxId} {finish : Bool} : pkt.ptype = .respondExecute →
      pkt.getTxId = .ok txId → pkt.boolHeader 2 = .ok finish →
      Handles b socket pkt (b.onRespondExecute txId finish)
  | ignored : (pkt.ptype = .respond ∨ ∃ code, pkt.ptype = .unknown code) →
      Handles b socket pkt (b, none)

/-- A handling that returns is one of the cases of `Handles`. -/
theorem handles_of_handle {b : Broker} {socket : SocketName} {pkt : Packet}
    {r : Broker × Option Send} (h : b.handle socket pkt = .ok r) : Handles b socket pkt r := by
  obtain ⟨txId, htx, h⟩ := Except.bind_eq_ok_iff.mp h
  obtain ⟨text, -, h⟩ := Except.bind_eq_ok_iff.mp h
  cases hp : pkt.ptype with
  | connect =>
    simp only [hp] at h
    cases h
    exact .connect hp htx
  | disconnect =>
    simp only [hp] at h
    cases h
    exact .disconnect hp htx
  | subscribe =>
    simp only [hp] at h
    obtain ⟨channel, hch, h⟩ := Except.bind_eq_ok_iff.mp h
    cases h
    exact .subscribe hp htx hch
  | unsubscribe =>
    simp only [hp] at h
    obtain ⟨channel, hch, h⟩ := Except.bind_eq_ok_iff.mp h
    cases h
    exact .unsubscribe hp htx hch
  | execute =>
    simp only [hp] at h
    obtain ⟨channel, hch, h⟩ := Except.bind_eq_ok_iff.mp h
    cases h
    exact .execute hp htx hch
  | respondExecute =>
    simp only [hp] at h
    obtain ⟨finish, hfin, h⟩ := Except.bind_eq_ok_iff.mp h
    cases h
    exact .respondExecute hp htx hfin
  | respond =>
    simp only [hp] at h
    cases h
    exact .ignored (.inl hp)
  | unknown code =>
    simp only [hp] at h
    cases h
    exact .ignored (.inr ⟨code, hp⟩)

/-! ## The packets of the templates -/

section Templates

variable (b : Broker) (socket : SocketName) (txId : TxId) (i : Instruction)

theorem handle_connect :
    b.handle socket (.connect txId) = .ok (b, some (.reply (.respond txId))) := rfl

theorem handle_disconnect :
    b.handle socket (.disconnect txId) = .ok (b.onDisconnect socket txId) := rfl

theorem handle_subscribe :
    b.handle socket (.subscribe txId i) = .ok (b.onSubscribe socket txId i.channel) := by
  cases i <;> rfl

theorem handle_unsubscribe :
    b.handle socket (.unsubscribe txId i) = .ok (b.onUnsubscribe socket txId i.channel) := by
  cases i <;> rfl

theorem handle_execute (r : Request) :
    b.handle socket (.execute txId r) = .ok (b.onExecute socket txId r.instruction.channel) := by
  cases r <;> rfl

theorem handle_respondExecute (seq : ℕ) (fin : Bool) (out : Value) :
    b.handle socket (.respondExecute txId seq fin out) = .ok (b.onRespondExecute txId fin) := rfl

theorem handle_respondExecuteError (seq : ℕ) (reason : String) :
    b.handle socket (.respondExecuteError txId seq reason) = .ok (b.onRespondExecute txId true) :=
  rfl

end Templates

end Broker

end Ailoy
