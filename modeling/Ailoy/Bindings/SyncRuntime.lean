import Ailoy.Bindings.Replies
import Ailoy.Lib.Transition

/-!
# The generators of the synchronous runtime

`Runtime` of `bindings/python/ailoy/runtime.py`, used from one thread. Whichever call listens, takes
the packets as they come and keeps those of all other transactions. `demultiplexed` says that a call
does not depend on that: a generator gives the replies of its own transaction in order, whatever the
order in which the packets come and the generators are pulled.
-/

namespace Ailoy

open Transition

variable {α : Type*}

/-- A generator between two pulls. -/
inductive Generator
  /-- At the head of its loop. -/
  | active (idx : ℕ) (finished : Bool)
  | ended

/-- A transaction that the runtime has sent. -/
inductive SyncCall
  | generator (g : Generator)
  /-- A call of `define` or `delete`, with its end. -/
  | single (result : Except String Unit)

/-- The runtime, with what `listen` of its client will give, and the outcomes of all pulls so far. -/
structure SyncRuntime (α : Type*) where
  incoming : List (Incoming α)
  buffers : Buffers α
  calls : TxId → Option SyncCall
  log : TxId → List (Outcome α)

/-- A call of the runtime, under the transaction that it sends, or a pull. -/
inductive SyncAct
  | callIter (txId : TxId)
  | callIterMethod (txId : TxId)
  | pull (txId : TxId)
  | define (txId : TxId)
  | delete (txId : TxId)

namespace SyncRuntime

/-- A runtime that has called nothing. -/
def initial (incoming : List (Incoming α)) : SyncRuntime α :=
  ⟨incoming, .empty, fun _ => none, fun _ => []⟩

/-- A transaction is at a new place. -/
def setCall (s : SyncRuntime α) (txId : TxId) (c : SyncCall) : SyncRuntime α :=
  { s with calls := Function.update s.calls txId (some c) }

/-- A pull ends, with the generator at a new place. -/
def settle (s : SyncRuntime α) (txId : TxId) (g : Generator) (o : Outcome α) : SyncRuntime α :=
  { s.setCall txId (.generator g) with
    log := Function.update s.log txId (s.log txId ++ [o]) }

/-- `while idx not in self._exec_responses[txid]: self._sync_listen()` -/
def listenUntil (s : SyncRuntime α) (txId : TxId) (idx : ℕ) : Option (Reply α × SyncRuntime α) :=
  (s.buffers.listenUntil txId idx s.incoming).map fun (reply, buffers, incoming) =>
    (reply, { s with buffers, incoming })

/-- The generator runs to its next `yield`, or to its end. -/
def resume (s : SyncRuntime α) (txId : TxId) : Generator → Option (SyncRuntime α)
  | .ended => some (s.settle txId .ended .stops)
  | .active _ true =>
    some ({ s with buffers := s.buffers.del txId }.settle txId .ended .stops)
  | .active idx false =>
    (s.listenUntil txId idx).map fun (reply, s) =>
      let s := { s with buffers := s.buffers.pop txId idx }
      match reply.body with
      | .error reason => s.settle txId .ended (.raises reason)
      | .ok out => s.settle txId (.active (idx + 1) reply.finished) (.yields out)

/-- `define` and `delete`: the reply is read and not popped. -/
def single (s : SyncRuntime α) (txId : TxId) : Option (SyncRuntime α) :=
  (s.listenUntil txId 0).map fun (reply, s) =>
    match reply.body with
    | .error reason => s.setCall txId (.single (.error reason))
    | .ok _ => { s with buffers := s.buffers.del txId }.setCall txId (.single (.ok ()))

/-- A call or a pull. A call has a transaction of its own, which nothing was sent under. There is no
next state when it listens forever. -/
def step (s : SyncRuntime α) : SyncAct → Option (SyncRuntime α)
  | .callIter txId | .callIterMethod txId =>
    if s.calls txId = none then some (s.setCall txId (.generator (.active 0 false))) else none
  | .pull txId =>
    match s.calls txId with
    | some (.generator g) => s.resume txId g
    | some (.single _) | none => none
  | .define txId | .delete txId => if s.calls txId = none then s.single txId else none

/-- What `define` and `delete` should end with: their first reply says it. -/
def singleResult (replies : List (Reply α)) : Option (Except String Unit) :=
  replies[0]?.map fun reply => reply.body.map fun _ => ()

/-- What a runtime owes to its caller, when these are the replies to its transactions. -/
structure Demultiplexed (replies : TxId → List (Reply α)) (s : SyncRuntime α) : Prop where
  /-- All that a generator has given so far is what it should have. -/
  given : ∀ txId g, s.calls txId = some (.generator g) → Gives (replies txId) (s.log txId)
  /-- The next pull ends, gives what it should, and gives nothing to the other generators. -/
  pull : ∀ txId g, s.calls txId = some (.generator g) → ∀ o,
    outcome (replies txId) (s.log txId).length = some o → ∃ s', s.step (.pull txId) = some s' ∧
      s'.log = Function.update s.log txId (s.log txId ++ [o])
  /-- A call of `define` or `delete` has ended as its only reply says. -/
  ended : ∀ txId result, s.calls txId = some (.single result) →
    singleResult (replies txId) = some result
  /-- The next such call ends, as its only reply says, and gives nothing to the generators. -/
  single : ∀ txId, s.calls txId = none → ∀ result, singleResult (replies txId) = some result →
    ∀ a, a = .define txId ∨ a = .delete txId → ∃ s', s.step a = some s' ∧
      s'.calls txId = some (.single result) ∧ s'.log = s.log

end SyncRuntime

/-! ## One generator -/

/-- What the next pulls of a generator should give. -/
def Generator.rest (replies : List (Reply α)) : Generator → ℕ → Option (Outcome α)
  | .active idx false, n => outcome (replies.drop idx) n
  | .active _ true, _ | .ended, _ => some .stops

/-- The outcomes of a generator's pulls are those that they should be, and the rest is to come. -/
structure Follows (replies : List (Reply α)) (log : List (Outcome α)) (g : Generator) : Prop where
  past : Gives replies log
  future : ∀ n, outcome replies (log.length + n) = g.rest replies n

section Generator

variable {replies : List (Reply α)} {log : List (Outcome α)} {g g' : Generator} {o : Outcome α}
  {idx : ℕ} {reply : Reply α}

/-- A generator that has not been pulled. -/
theorem follows_nil : Follows replies [] (.active 0 false) := by
  refine ⟨fun n o h => by simp at h, fun n => ?_⟩
  rw [List.length_nil, Nat.zero_add]
  rfl

/-- A pull gives the first outcome of the rest. -/
theorem Follows.append (h : Follows replies log g) (ho : g.rest replies 0 = some o)
    (hrest : ∀ n, g.rest replies (n + 1) = g'.rest replies n) :
    Follows replies (log ++ [o]) g' := by
  refine ⟨h.past.append ((h.future 0).trans ho), fun n => ?_⟩
  have hlen : (log ++ [o]).length + n = log.length + (n + 1) := by simp; omega
  rw [hlen, h.future (n + 1)]
  exact hrest n

/-- The rest of a generator begins with the reply at its place. -/
theorem rest_active (hr : replies[idx]? = some reply) (n : ℕ) :
    (Generator.active idx false).rest replies n =
      outcome (reply :: replies.drop (idx + 1)) n := by
  have hdrop : replies.drop idx = reply :: replies.drop (idx + 1) := by
    obtain ⟨hlt, rfl⟩ := List.getElem?_eq_some_iff.mp hr
    exact List.drop_eq_getElem_cons hlt
  rw [Generator.rest, hdrop]

/-- A generator that has raised a failure gives nothing more. -/
theorem Follows.raises (h : Follows replies log (.active idx false)) {reason : String}
    (hr : replies[idx]? = some reply) (hbody : reply.body = .error reason) :
    Follows replies (log ++ [.raises reason]) .ended := by
  obtain ⟨finished, body⟩ := reply
  dsimp only at hbody
  subst hbody
  exact h.append (rest_active hr 0) fun n => rest_active hr (n + 1)

/-- A generator that has given a value goes on behind it, or stops at the next pull. -/
theorem Follows.yields (h : Follows replies log (.active idx false)) {out : α}
    (hr : replies[idx]? = some reply) (hbody : reply.body = .ok out) :
    Follows replies (log ++ [.yields out]) (.active (idx + 1) reply.finished) := by
  obtain ⟨finished, body⟩ := reply
  dsimp only at hbody
  subst hbody
  -- Whether the reply is the last one is read at the next pull.
  cases finished with
  | true => exact h.append (rest_active hr 0) fun n => rest_active hr (n + 1)
  | false => exact h.append (rest_active hr 0) fun n => rest_active hr (n + 1)

/-- A generator that has stopped stops again. -/
theorem Follows.stops (h : Follows replies log g) (hg : ∀ idx, g ≠ .active idx false) :
    Follows replies (log ++ [.stops]) .ended := by
  have hrest : ∀ n, g.rest replies n = some .stops := by
    intro n
    cases g with
    | ended => rfl
    | active idx finished =>
      cases finished with
      | true => rfl
      | false => exact absurd rfl (hg idx)
  exact h.append (hrest 0) fun n => hrest (n + 1)

end Generator

namespace SyncRuntime

/-! ## One step -/

/-- The replies that are kept or still to come. -/
def pending (s : SyncRuntime α) : TxId → ℕ → Option (Reply α) := s.buffers.pending s.incoming

/-- Where a transaction is, by what it has given, what is pending for it, and its replies. -/
def Fate (replies : List (Reply α)) (log : List (Outcome α)) (pending : ℕ → Option (Reply α)) :
    Option SyncCall → Prop
  | none => log = [] ∧ ∀ idx, pending idx = replies[idx]?
  | some (.generator g) => Follows replies log g ∧
    -- An open generator has taken the replies before its place and no others.
    ∀ idx, g = .active idx false → ∀ idx', idx ≤ idx' → pending idx' = replies[idx']?
  | some (.single result) => singleResult replies = some result

/-- The invariant. -/
structure Serves (replies : TxId → List (Reply α)) (s : SyncRuntime α) : Prop where
  distinct : s.buffers.Distinct s.incoming
  fate : ∀ txId, Fate (replies txId) (s.log txId) (s.pending txId) (s.calls txId)

variable {replies : TxId → List (Reply α)} {s s' : SyncRuntime α} {txId : TxId} {idx : ℕ}
  {reply : Reply α} {c : SyncCall} {log : List (Outcome α)}

theorem serves_initial {incoming : List (Incoming α)} (h : Carries replies incoming) :
    Serves replies (initial incoming) :=
  ⟨h.distinct_empty, fun txId => ⟨rfl, h.pending_empty txId⟩⟩

/-- A step that is about one transaction keeps the invariant for all the others. -/
theorem Serves.update (h : Serves replies s) (hd : s'.buffers.Distinct s'.incoming)
    (hcalls : s'.calls = Function.update s.calls txId (some c))
    (hlog : s'.log = Function.update s.log txId log)
    (hpending : ∀ t, t ≠ txId → s'.pending t = s.pending t)
    (hfate : Fate (replies txId) log (s'.pending txId) (some c)) : Serves replies s' := by
  refine ⟨hd, fun t => ?_⟩
  rw [hcalls, hlog]
  by_cases ht : t = txId
  · subst ht
    rw [Function.update_self, Function.update_self]
    exact hfate
  · rw [Function.update_of_ne ht, Function.update_of_ne ht, hpending t ht]
    exact h.fate t

/-- Listening for a reply takes nothing from any transaction. -/
theorem Serves.listenUntil (h : Serves replies s)
    (hl : s.listenUntil txId idx = some (reply, s')) :
    s'.buffers.execResponses txId idx = some reply ∧ s'.pending = s.pending ∧
      s'.calls = s.calls ∧ s'.log = s.log ∧ Serves replies s' := by
  obtain ⟨⟨reply', buffers, incoming⟩, hl', heq⟩ := Option.map_eq_some_iff.mp hl
  obtain ⟨rfl, rfl⟩ : reply' = reply ∧ { s with buffers, incoming } = s' := by simpa using heq
  obtain ⟨hthere, hd, hpending⟩ := Buffers.listenUntil_spec h.distinct hl'
  have hsame : SyncRuntime.pending { s with buffers, incoming } = s.pending := hpending
  refine ⟨hthere, hsame, rfl, rfl, hd, ?_⟩
  rw [hsame]
  exact h.fate

/-- Listening for a reply that is kept or to come ends with it. -/
theorem Serves.exists_listenUntil (h : Serves replies s) (hr : s.pending txId idx = some reply) :
    ∃ s', s.listenUntil txId idx = some (reply, s') := by
  obtain ⟨buffers, incoming, hl⟩ := Buffers.exists_listenUntil h.distinct hr
  exact ⟨{ s with buffers, incoming }, by rw [SyncRuntime.listenUntil, hl]; rfl⟩

/-- A reply that is there is the one that is pending. -/
theorem pending_of_execResponses (h : s.buffers.execResponses txId idx = some reply) :
    s.pending txId idx = some reply := by
  rw [pending, Buffers.pending, h, Option.some_or]

/-- A generator that waits for a reply gets the one of its own stream. -/
theorem Serves.reply_eq (h : Serves replies s)
    (hc : s.calls txId = some (.generator (.active idx false)))
    (hthere : s.buffers.execResponses txId idx = some reply) :
    (replies txId)[idx]? = some reply := by
  have hfate := h.fate txId
  rw [hc] at hfate
  rw [← hfate.2 idx rfl idx (Nat.le_refl idx)]
  exact pending_of_execResponses hthere

/-- A new call has everything still to come. -/
theorem Serves.callIter (h : Serves replies s) (hc : s.calls txId = none) :
    Serves replies (s.setCall txId (.generator (.active 0 false))) := by
  have hfate := h.fate txId
  rw [hc] at hfate
  obtain ⟨hlog, hpending⟩ := hfate
  have hlog' : s.log = Function.update s.log txId [] := by
    rw [← hlog]
    exact (Function.update_eq_self ..).symm
  exact h.update h.distinct rfl hlog' (fun _ _ => rfl)
    ⟨follows_nil, fun _ _ idx' _ => hpending idx'⟩

/-- A generator that has its reply takes it. -/
theorem Serves.take (h : Serves replies s)
    (hc : s.calls txId = some (.generator (.active idx false)))
    (hthere : s.buffers.execResponses txId idx = some reply) {g : Generator} {o : Outcome α}
    (hfollows : Follows (replies txId) (s.log txId ++ [o]) g)
    (hg : ∀ idx', g = .active idx' false → idx' = idx + 1) :
    Serves replies ({ s with buffers := s.buffers.pop txId idx }.settle txId g o) := by
  -- The reply leaves the buffer, and nothing else does.
  have hpop : ∀ t i, (s.buffers.pop txId idx).pending s.incoming t i =
      if t = txId ∧ i = idx then none else s.pending t i := fun _ _ =>
    h.distinct.pending_pop hthere
  have hfate := h.fate txId
  rw [hc] at hfate
  obtain ⟨-, hpending⟩ := hfate
  refine h.update (h.distinct.of_le fun t i => ?_) rfl rfl (fun t ht => ?_) ⟨hfollows, ?_⟩
  · show (s.buffers.pop txId idx).execResponses t i = none ∨
      (s.buffers.pop txId idx).execResponses t i = s.buffers.execResponses t i
    rw [Buffers.pop, Buffers.execResponses_set]
    split_ifs
    · exact .inl rfl
    · exact .inr rfl
  · funext i
    refine (hpop t i).trans ?_
    rw [if_neg fun h => ht h.1]
  · intro idx' hidx i hi
    obtain rfl := hg idx' hidx
    refine (hpop txId i).trans ?_
    rw [if_neg (by omega)]
    exact hpending idx rfl i (by omega)

/-- A transaction whose entry is removed has taken all that it reads. -/
theorem Serves.del (h : Serves replies s) {c : SyncCall}
    (hcalls : s'.calls = Function.update s.calls txId (some c))
    (hlog : s'.log = Function.update s.log txId log) (hbuffers : s'.buffers = s.buffers.del txId)
    (hincoming : s'.incoming = s.incoming)
    (hfate : Fate (replies txId) log (s'.pending txId) (some c)) : Serves replies s' := by
  refine h.update ?_ hcalls hlog (fun t ht => ?_) hfate
  · rw [hbuffers, hincoming]
    refine h.distinct.of_le fun t i => ?_
    rw [Buffers.execResponses_del]
    split_ifs
    · exact .inl rfl
    · exact .inr rfl
  · funext i
    rw [pending, hbuffers, hincoming]
    exact Buffers.pending_del ht

/-- A pull keeps the invariant. -/
theorem Serves.resume (h : Serves replies s) {g : Generator}
    (hc : s.calls txId = some (.generator g)) (hs : s.resume txId g = some s') :
    Serves replies s' := by
  have hfate := h.fate txId
  rw [hc] at hfate
  obtain ⟨hfollows, -⟩ := hfate
  cases g with
  | ended =>
    obtain rfl := Option.some.inj hs
    exact h.update h.distinct rfl rfl (fun _ _ => rfl) ⟨hfollows.stops nofun, nofun⟩
  | active idx finished =>
    cases finished with
    | true =>
      obtain rfl := Option.some.inj hs
      exact h.del rfl rfl rfl rfl ⟨hfollows.stops nofun, nofun⟩
    | false =>
      obtain ⟨⟨reply, s₁⟩, hl, heq⟩ := Option.map_eq_some_iff.mp hs
      obtain ⟨hthere, -, hcalls₁, hlog₁, h₁⟩ := h.listenUntil hl
      have hc₁ : s₁.calls txId = some (.generator (.active idx false)) := by rw [hcalls₁, hc]
      have hreply := h₁.reply_eq hc₁ hthere
      rw [← hlog₁] at hfollows
      cases hbody : reply.body with
      | error reason =>
        simp only [hbody] at heq
        subst heq
        exact h₁.take hc₁ hthere (hfollows.raises hreply hbody) nofun
      | ok out =>
        simp only [hbody] at heq
        subst heq
        exact h₁.take hc₁ hthere (hfollows.yields hreply hbody) fun idx' hidx => by
          obtain ⟨rfl, -⟩ : idx + 1 = idx' ∧ reply.finished = false := by simpa using hidx
          rfl

/-- A call of `define` or `delete` keeps the invariant. -/
theorem Serves.single (h : Serves replies s) (hc : s.calls txId = none)
    (hs : s.single txId = some s') : Serves replies s' := by
  obtain ⟨⟨reply, s₁⟩, hl, heq⟩ := Option.map_eq_some_iff.mp hs
  obtain ⟨hthere, -, hcalls₁, -, h₁⟩ := h.listenUntil hl
  have hfate := h₁.fate txId
  rw [hcalls₁, hc] at hfate
  obtain ⟨-, hpending⟩ := hfate
  have hreply : (replies txId)[0]? = some reply := by
    rw [← hpending 0]
    exact pending_of_execResponses hthere
  have hresult : singleResult (replies txId) = some (reply.body.map fun _ => ()) := by
    rw [singleResult, hreply]
    rfl
  have hlog' : s₁.log = Function.update s₁.log txId (s₁.log txId) :=
    (Function.update_eq_self ..).symm
  cases hbody : reply.body with
  | error reason =>
    simp only [hbody] at heq
    subst heq
    rw [hbody] at hresult
    exact h₁.update h₁.distinct rfl hlog' (fun _ _ => rfl) hresult
  | ok out =>
    simp only [hbody] at heq
    subst heq
    rw [hbody] at hresult
    exact h₁.del rfl hlog' rfl rfl hresult

/-- A step keeps the invariant. -/
theorem Serves.step (h : Serves replies s) {a : SyncAct} (hs : s.step a = some s') :
    Serves replies s' := by
  cases a with
  | callIter txId | callIterMethod txId =>
    simp only [SyncRuntime.step] at hs
    split_ifs at hs with hc
    obtain rfl := Option.some.inj hs
    exact h.callIter hc
  | pull txId =>
    simp only [SyncRuntime.step] at hs
    split at hs
    · rename_i g hc
      exact h.resume hc hs
    · cases hs
    · cases hs
  | define txId | delete txId =>
    simp only [SyncRuntime.step] at hs
    split_ifs at hs with hc
    exact h.single hc hs

/-! ## Runs -/

/-- A pull whose outcome is decided by the replies ends, and gives it. -/
theorem Serves.pull (h : Serves replies s) {g : Generator} (hc : s.calls txId = some (.generator g))
    {o : Outcome α} (ho : outcome (replies txId) (s.log txId).length = some o) :
    ∃ s', s.resume txId g = some s' ∧
      s'.log = Function.update s.log txId (s.log txId ++ [o]) := by
  have hfate := h.fate txId
  rw [hc] at hfate
  obtain ⟨hfollows, hpending⟩ := hfate
  have hnext : g.rest (replies txId) 0 = some o := by
    rw [← hfollows.future 0]
    exact ho
  cases g with
  | ended =>
    obtain rfl : .stops = o := Option.some.inj hnext
    exact ⟨_, rfl, rfl⟩
  | active idx finished =>
    cases finished with
    | true =>
      obtain rfl : .stops = o := Option.some.inj hnext
      exact ⟨_, rfl, rfl⟩
    | false =>
      cases hr : (replies txId)[idx]? with
      | none =>
        -- No reply is left, so nothing is said of this pull.
        rw [Generator.rest, List.drop_eq_nil_of_le (List.getElem?_eq_none_iff.mp hr)] at hnext
        cases hnext
      | some reply =>
        have hreply : s.pending txId idx = some reply := by
          rw [hpending idx rfl idx (Nat.le_refl idx), hr]
        obtain ⟨s₁, hl⟩ := h.exists_listenUntil hreply
        obtain ⟨-, -, -, hlog₁, -⟩ := h.listenUntil hl
        rw [rest_active hr 0] at hnext
        rw [SyncRuntime.resume, hl]
        obtain ⟨last, body⟩ := reply
        cases body with
        | error reason =>
          obtain rfl : .raises reason = o := Option.some.inj hnext
          exact ⟨_, rfl, by rw [← hlog₁]; rfl⟩
        | ok out =>
          obtain rfl : .yields out = o := by cases last <;> exact Option.some.inj hnext
          exact ⟨_, rfl, by rw [← hlog₁]; rfl⟩

/-- A call of `define` or `delete` whose end is decided by the replies ends so. -/
theorem Serves.exists_single (h : Serves replies s) (hc : s.calls txId = none)
    {result : Except String Unit} (hr : singleResult (replies txId) = some result) :
    ∃ s', s.single txId = some s' ∧ s'.calls txId = some (.single result) ∧ s'.log = s.log := by
  have hfate := h.fate txId
  rw [hc] at hfate
  obtain ⟨reply, hreply, rfl⟩ := Option.map_eq_some_iff.mp hr
  have hpending : s.pending txId 0 = some reply := by rw [hfate.2 0, hreply]
  obtain ⟨s₁, hl⟩ := h.exists_listenUntil hpending
  obtain ⟨-, -, -, hlog₁, -⟩ := h.listenUntil hl
  rw [SyncRuntime.single, hl]
  obtain ⟨last, body⟩ := reply
  cases body with
  | error reason => exact ⟨_, rfl, Function.update_self .., hlog₁⟩
  | ok out => exact ⟨_, rfl, Function.update_self .., hlog₁⟩

/-- The invariant says all that the caller is owed. -/
theorem Serves.owes (h : Serves replies s) : Demultiplexed replies s where
  given txId g hc := by
    have hfate := h.fate txId
    rw [hc] at hfate
    exact hfate.1.past
  pull txId g hc o ho := by
    rw [SyncRuntime.step, hc]
    exact h.pull hc ho
  ended txId result hc := by
    have hfate := h.fate txId
    rw [hc] at hfate
    exact hfate
  single txId hc result hr a ha := by
    have hstep : s.step a = s.single txId := by
      rcases ha with rfl | rfl
      all_goals
        simp only [SyncRuntime.step]
        rw [if_pos hc]
    rw [hstep]
    exact h.exists_single hc hr

/-- Whatever the order in which the packets come and the calls and pulls are made: every generator
gives what its own replies say and its next pull ends whenever they say what it gives, and so do
`define` and `delete`. -/
theorem demultiplexed (replies : TxId → List (Reply α)) (incoming : List (Incoming α))
    (h : Carries replies incoming) (s : SyncRuntime α) (hs : Reach step (initial incoming) s) :
    Demultiplexed replies s := by
  have hinv : Serves replies s :=
    hs.invariant (P := Serves replies) (serves_initial h) fun _ _ _ _ hserves _ hstep =>
      hserves.step hstep
  exact hinv.owes

/-- Two streams, of which the second ends in a failure. -/
def twoStreams (txId : TxId) : List (Reply ℕ) :=
  if txId = "a" then [⟨false, .ok 1⟩, ⟨true, .ok 2⟩]
  else if txId = "b" then [⟨false, .ok 3⟩, ⟨true, .error "failed"⟩]
  else []

/-- Their packets, in another order. -/
def twoStreamsIncoming : List (Incoming ℕ) :=
  [.respondExecute "b" 1 ⟨true, .error "failed"⟩, .timeout, .respondExecute "a" 1 ⟨true, .ok 2⟩,
    .respondExecute "b" 0 ⟨false, .ok 3⟩, .respond "c" (.ok ()),
    .respondExecute "a" 0 ⟨false, .ok 1⟩]

theorem demultiplexed_twoStreams : ∃ s,
    run step (initial twoStreamsIncoming) [.callIter "a", .callIterMethod "b", .pull "a", .pull "b",
      .pull "b", .pull "a", .pull "a"] = some s ∧
    (s.log "a", s.log "b") = ([.yields 1, .yields 2, .stops], [.yields 3, .raises "failed"]) ∧
    Demultiplexed twoStreams s := by
  have hcarries : Carries twoStreams twoStreamsIncoming := by
    refine ⟨by decide, fun txId idx reply => ?_⟩
    by_cases ha : txId = "a"
    · subst ha
      rcases idx with _ | _ | idx
      all_goals simp [twoStreams, twoStreamsIncoming, eq_comm]
    by_cases hb : txId = "b"
    · subst hb
      rcases idx with _ | _ | idx
      all_goals simp [twoStreams, twoStreamsIncoming, eq_comm]
    · simp [twoStreams, twoStreamsIncoming, ha, hb]
  have hlogs : (run step (initial twoStreamsIncoming) [.callIter "a", .callIterMethod "b",
      .pull "a", .pull "b", .pull "b", .pull "a", .pull "a"]).map
        (fun s => (s.log "a", s.log "b")) =
      some ([.yields 1, .yields 2, .stops], [.yields 3, .raises "failed"]) := by decide
  obtain ⟨s, hs, heq⟩ := Option.map_eq_some_iff.mp hlogs
  exact ⟨s, hs, heq, demultiplexed twoStreams _ hcarries s (reach_of_run hs)⟩

end SyncRuntime

end Ailoy
