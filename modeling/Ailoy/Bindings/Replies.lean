import Ailoy.Core.Packet
import Mathlib.Logic.Function.Basic

/-!
# The responses that the bindings wait for

Both bindings (`bindings/python/ailoy/runtime.py`, `bindings/js-node/src/runtime.ts`) listen for the
packets of all their transactions at one place, and keep what nobody waits for in a map of maps, by
transaction and sequence number. `outcome` says what the calls of an iterator over a transaction
should give, and `Buffers.listenUntil` is the loop that listens until one packet is there.
-/

namespace Ailoy

variable {α : Type*}

/-- A `respond_execute` packet beside its transaction and sequence number: `headers[2]`, and the body
with `status` and then `out` or `reason`. -/
structure Reply (α : Type*) where
  finished : Bool
  body : Except String α

/-- What a call of an iterator gives. -/
inductive Outcome (α : Type*)
  | yields (out : α)
  | raises (reason : String)
  | stops
  deriving DecidableEq

/-- What the call with a number gives, when the iterator is over these replies: the values up to the
one that is marked as finished, or up to a failure, which is raised once. Nothing is said of a call
behind the last reply of a stream without such an end. -/
def outcome : List (Reply α) → ℕ → Option (Outcome α)
  | [], _ => none
  | ⟨_, .error reason⟩ :: _, 0 => some (.raises reason)
  | ⟨_, .error _⟩ :: _, _ + 1 => some .stops
  | ⟨_, .ok out⟩ :: _, 0 => some (.yields out)
  | ⟨true, .ok _⟩ :: _, _ + 1 => some .stops
  | ⟨false, .ok _⟩ :: replies, n + 1 => outcome replies n

/-- The outcomes of the calls so far are those that they should be. -/
def Gives (replies : List (Reply α)) (log : List (Outcome α)) : Prop :=
  ∀ n o, log[n]? = some o → outcome replies n = some o

/-- One more call gives what it should. -/
theorem Gives.append {replies : List (Reply α)} {log : List (Outcome α)} {o : Outcome α}
    (h : Gives replies log) (ho : outcome replies log.length = some o) :
    Gives replies (log ++ [o]) := by
  intro n o' hn
  rcases Nat.lt_trichotomy n log.length with hlt | heq | hgt
  · rw [List.getElem?_append_left hlt] at hn
    exact h n o' hn
  · subst heq
    obtain rfl : o = o' := by simpa using hn
    exact ho
  · rw [List.getElem?_eq_none (by simp; omega)] at hn
    cases hn

/-- What `listen` of the broker client gives. -/
inductive Incoming (α : Type*)
  | timeout
  | respond (txId : TxId) (body : Except String Unit)
  | respondExecute (txId : TxId) (idx : ℕ) (reply : Reply α)

/-- The place of a reply. -/
def Incoming.key : Incoming α → Option (TxId × ℕ)
  | .respondExecute txId idx _ => some (txId, idx)
  | .timeout | .respond _ _ => none

/-- The reply for a place. -/
def Incoming.replyAt (txId : TxId) (idx : ℕ) : Incoming α → Option (Reply α)
  | .respondExecute txId' idx' reply => if txId' = txId ∧ idx' = idx then some reply else none
  | .timeout | .respond _ _ => none

/-- The replies of these streams come once each, in any order and with anything else in between. -/
structure Carries (replies : TxId → List (Reply α)) (incoming : List (Incoming α)) : Prop where
  once : (incoming.filterMap Incoming.key).Nodup
  mem : ∀ txId idx reply,
    .respondExecute txId idx reply ∈ incoming ↔ (replies txId)[idx]? = some reply

/-- `_responses` and `_exec_responses`. A transaction without an entry is the same as one whose map is
empty. -/
structure Buffers (α : Type*) where
  responses : TxId → Option (Except String Unit)
  execResponses : TxId → ℕ → Option (Reply α)

namespace Buffers

/-- No packet is kept. -/
def empty : Buffers α := ⟨fun _ => none, fun _ _ => none⟩

/-- The entry of the map of a transaction at a sequence number is set, or removed. -/
def set (b : Buffers α) (txId : TxId) (idx : ℕ) (entry : Option (Reply α)) : Buffers α where
  responses := b.responses
  execResponses := Function.update b.execResponses txId
    (Function.update (b.execResponses txId) idx entry)

/-- What `_sync_listen` and `_listen` do with a packet. -/
def store (b : Buffers α) : Incoming α → Buffers α
  | .timeout => b
  | .respond txId body => { b with responses := Function.update b.responses txId (some body) }
  | .respondExecute txId idx reply => b.set txId idx (some reply)

/-- `pop(idx)` of the map of a transaction. -/
def pop (b : Buffers α) (txId : TxId) (idx : ℕ) : Buffers α := b.set txId idx none

/-- `del` of the map of a transaction. -/
def del (b : Buffers α) (txId : TxId) : Buffers α where
  responses := b.responses
  execResponses := Function.update b.execResponses txId fun _ => none

/-- The loop that listens while a reply is not there: the reply, the buffers, and what is still to
come. There is no result when it listens forever. -/
def listenUntil (txId : TxId) (idx : ℕ) :
    Buffers α → List (Incoming α) → Option (Reply α × Buffers α × List (Incoming α))
  | b, [] => (b.execResponses txId idx).map fun reply => (reply, b, [])
  | b, p :: incoming =>
    match b.execResponses txId idx with
    | some reply => some (reply, b, p :: incoming)
    | none => listenUntil txId idx (b.store p) incoming

/-- The reply for a place that is there or is still to come. -/
def pending (b : Buffers α) (incoming : List (Incoming α)) (txId : TxId) (idx : ℕ) :
    Option (Reply α) :=
  (b.execResponses txId idx).or (incoming.findSome? (Incoming.replyAt txId idx))

/-- No two replies for one place are there or to come. -/
structure Distinct (b : Buffers α) (incoming : List (Incoming α)) : Prop where
  once : (incoming.filterMap Incoming.key).Nodup
  fresh : ∀ txId idx, (txId, idx) ∈ incoming.filterMap Incoming.key →
    b.execResponses txId idx = none

variable {b : Buffers α} {incoming : List (Incoming α)} {p : Incoming α} {txId txId' : TxId}
  {idx idx' : ℕ} {reply : Reply α}

theorem execResponses_set (entry : Option (Reply α)) :
    (b.set txId idx entry).execResponses txId' idx' =
      if txId' = txId ∧ idx' = idx then entry else b.execResponses txId' idx' := by
  by_cases ht : txId' = txId
  · subst ht
    by_cases hi : idx' = idx
    · subst hi
      simp [set]
    · simp [set, hi]
  · simp [set, ht]

theorem execResponses_del :
    (b.del txId).execResponses txId' idx' =
      if txId' = txId then none else b.execResponses txId' idx' := by
  by_cases ht : txId' = txId
  · subst ht
    simp [del]
  · simp [del, ht]

/-- A packet that is stored is found at its place. -/
theorem execResponses_store : (b.store p).execResponses txId idx =
    (p.replyAt txId idx).or (b.execResponses txId idx) := by
  cases p with
  | timeout => rfl
  | respond txId' body => rfl
  | respondExecute txId' idx' reply =>
    rw [store, execResponses_set, Incoming.replyAt]
    by_cases h : txId' = txId ∧ idx' = idx
    · rw [if_pos h, if_pos ⟨h.1.symm, h.2.symm⟩, Option.some_or]
    · rw [if_neg h, if_neg fun h' => h ⟨h'.1.symm, h'.2.symm⟩, Option.none_or]

end Buffers

/-- A packet has a reply for its own place only. -/
theorem Incoming.replyAt_eq_some {p : Incoming α} {txId : TxId} {idx : ℕ} {reply : Reply α} :
    p.replyAt txId idx = some reply ↔ p = .respondExecute txId idx reply := by
  cases p with
  | timeout => simp [replyAt]
  | respond txId' body => simp [replyAt]
  | respondExecute txId' idx' reply' =>
    rw [replyAt]
    split_ifs with h
    · obtain ⟨rfl, rfl⟩ := h
      simp
    · simp only [Incoming.respondExecute.injEq, false_iff]
      exact fun heq => h ⟨heq.1, heq.2.1⟩

/-- No packet that comes has a reply for a place that is not among theirs. -/
theorem findSome?_replyAt_eq_none {incoming : List (Incoming α)} {txId : TxId} {idx : ℕ}
    (h : (txId, idx) ∉ incoming.filterMap Incoming.key) :
    incoming.findSome? (Incoming.replyAt txId idx) = none := by
  rw [List.findSome?_eq_none_iff]
  intro p hp
  cases hr : p.replyAt txId idx with
  | none => rfl
  | some reply =>
    rw [Incoming.replyAt_eq_some] at hr
    subst hr
    exact (h (List.mem_filterMap.mpr ⟨_, hp, rfl⟩)).elim

namespace Buffers

variable {b : Buffers α} {incoming : List (Incoming α)} {p : Incoming α} {txId txId' : TxId}
  {idx idx' : ℕ} {reply : Reply α}

/-- A packet that comes and is stored leaves the rest distinct. -/
theorem Distinct.store (h : Distinct b (p :: incoming)) : Distinct (b.store p) incoming := by
  constructor
  · exact h.once.sublist ((List.sublist_cons_self p incoming).filterMap _)
  · intro txId idx hmem
    have hfresh : b.execResponses txId idx = none :=
      h.fresh txId idx (((List.sublist_cons_self p incoming).filterMap _).subset hmem)
    rw [execResponses_store, hfresh, Option.or_none]
    cases hr : p.replyAt txId idx with
    | none => rfl
    | some reply =>
      rw [Incoming.replyAt_eq_some] at hr
      subst hr
      exact absurd hmem (List.nodup_cons.mp h.once).1

/-- A packet that is stored was to come before and is there now. -/
theorem Distinct.pending_store (h : Distinct b (p :: incoming)) :
    pending (b.store p) incoming = pending b (p :: incoming) := by
  funext txId idx
  rw [pending, pending, execResponses_store, List.findSome?_cons]
  cases hr : p.replyAt txId idx with
  | none => rw [Option.none_or]
  | some reply =>
    rw [Incoming.replyAt_eq_some] at hr
    subst hr
    rw [h.fresh txId idx (List.mem_cons_self ..), Option.none_or]
    rfl

/-- What the loop ends with: the reply is there, and nothing else has changed in what is there or to
come. -/
theorem listenUntil_spec (h : Distinct b incoming) {b' : Buffers α} {incoming' : List (Incoming α)}
    (hl : listenUntil txId idx b incoming = some (reply, b', incoming')) :
    b'.execResponses txId idx = some reply ∧ Distinct b' incoming' ∧
      pending b' incoming' = pending b incoming := by
  induction incoming generalizing b with
  | nil =>
    obtain ⟨reply', hr, heq⟩ := Option.map_eq_some_iff.mp hl
    obtain ⟨rfl, rfl, rfl⟩ : reply' = reply ∧ b = b' ∧ [] = incoming' := by simpa using heq
    exact ⟨hr, h, rfl⟩
  | cons p incoming ih =>
    cases hr : b.execResponses txId idx with
    | some reply' =>
      rw [listenUntil, hr] at hl
      obtain ⟨rfl, rfl, rfl⟩ : reply' = reply ∧ b = b' ∧ p :: incoming = incoming' := by
        simpa using hl
      exact ⟨hr, h, rfl⟩
    | none =>
      rw [listenUntil, hr] at hl
      obtain ⟨hthere, hdistinct, hpending⟩ := ih h.store hl
      exact ⟨hthere, hdistinct, hpending.trans h.pending_store⟩

/-- The loop ends when the reply is there or to come. -/
theorem exists_listenUntil (h : Distinct b incoming) (hr : pending b incoming txId idx = some reply) :
    ∃ b' incoming', listenUntil txId idx b incoming = some (reply, b', incoming') := by
  induction incoming generalizing b with
  | nil =>
    have hthere : b.execResponses txId idx = some reply := by simpa [pending] using hr
    exact ⟨b, [], by rw [listenUntil, hthere]; rfl⟩
  | cons p incoming ih =>
    cases hthere : b.execResponses txId idx with
    | some reply' =>
      obtain rfl : reply' = reply := by simpa [pending, hthere] using hr
      exact ⟨b, p :: incoming, by rw [listenUntil, hthere]⟩
    | none =>
      obtain ⟨b', incoming', hl⟩ := ih h.store (by rw [h.pending_store]; exact hr)
      exact ⟨b', incoming', by rw [listenUntil, hthere]; exact hl⟩

/-- A reply that is taken is not there and not to come any more. -/
theorem Distinct.pending_pop (h : Distinct b incoming)
    (hr : b.execResponses txId idx = some reply) :
    pending (b.pop txId idx) incoming txId' idx' =
      if txId' = txId ∧ idx' = idx then none else pending b incoming txId' idx' := by
  rw [pending, pop, execResponses_set]
  split_ifs with heq
  · obtain ⟨rfl, rfl⟩ := heq
    refine (Option.none_or).trans (findSome?_replyAt_eq_none fun hmem => ?_)
    rw [h.fresh _ _ hmem] at hr
    cases hr
  · rfl

/-- What is removed was there at most once, so the rest is distinct. -/
theorem Distinct.of_le (h : Distinct b incoming) {b' : Buffers α}
    (hle : ∀ txId idx, b'.execResponses txId idx = none ∨
      b'.execResponses txId idx = b.execResponses txId idx) : Distinct b' incoming := by
  refine ⟨h.once, fun txId idx hmem => ?_⟩
  rcases hle txId idx with hnone | hsame
  · exact hnone
  · rw [hsame]
    exact h.fresh txId idx hmem

/-- The replies of the other transactions are there or to come as before. -/
theorem pending_del (hne : txId' ≠ txId) :
    pending (b.del txId) incoming txId' idx = pending b incoming txId' idx := by
  rw [pending, execResponses_del, if_neg hne, pending]

end Buffers

/-- Before the first packet, each reply is to come. -/
theorem Carries.pending_empty {replies : TxId → List (Reply α)} {incoming : List (Incoming α)}
    (h : Carries replies incoming) (txId : TxId) (idx : ℕ) :
    Buffers.pending .empty incoming txId idx = (replies txId)[idx]? := by
  have hfirst : Buffers.pending .empty incoming txId idx =
      incoming.findSome? (Incoming.replyAt txId idx) := Option.none_or
  rw [hfirst]
  cases hr : incoming.findSome? (Incoming.replyAt txId idx) with
  | some reply =>
    obtain ⟨p, hp, hpr⟩ := List.exists_of_findSome?_eq_some hr
    rw [Incoming.replyAt_eq_some] at hpr
    subst hpr
    exact ((h.mem txId idx reply).mp hp).symm
  | none =>
    cases hs : (replies txId)[idx]? with
    | none => rfl
    | some reply =>
      have hmem := (h.mem txId idx reply).mpr hs
      have hnone := List.findSome?_eq_none_iff.mp hr _ hmem
      rw [Incoming.replyAt_eq_some.mpr rfl] at hnone
      cases hnone

/-- Before the first packet, the replies are distinct. -/
theorem Carries.distinct_empty {replies : TxId → List (Reply α)} {incoming : List (Incoming α)}
    (h : Carries replies incoming) : Buffers.Distinct .empty incoming :=
  ⟨h.once, fun _ _ _ => rfl⟩

end Ailoy
