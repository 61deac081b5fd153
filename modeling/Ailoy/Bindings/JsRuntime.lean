import Ailoy.Bindings.Replies
import Ailoy.Lib.Transition
import Mathlib.Data.Finset.Basic

/-!
# The iterators of the JavaScript runtime

`Runtime` of `bindings/js-node/src/runtime.ts`. A packet meets the `next()` that it is for in one of
two functions, according to which comes first: `registerExecResolver` finds packets that were kept,
`registerExecResponse` finds a `next()` that waits. Both tell the iterator that its last packet has
come, but for a kept packet with a failure, behind which the first does not. The `next()` behind such
a rejection then waits for a packet that does not exist. `settles_iff` says that there is no other
way to tell the two functions apart.
-/

namespace Ailoy

open Transition

variable {α : Type*}

/-- What the promise of a `next()` settles with, when it is settled with a reply. -/
def Reply.outcome (reply : Reply α) : Outcome α :=
  match reply.body with
  | .ok out => .yields out
  | .error reason => .raises reason

/-- The replies to a transaction: the last one is marked as finished, no other is, and no other is a
failure. -/
def CompleteReplies : List (Reply α) → Prop
  | [] => False
  | [reply] => reply.finished = true
  | reply :: next :: replies =>
    reply.finished = false ∧ (∃ out, reply.body = .ok out) ∧ CompleteReplies (next :: replies)

/-- An iterator of `handleListenIter`, or the one that `handleListen` calls once, whose `setFinish`
does nothing. -/
structure JsIterator where
  iter : Bool
  idx : ℕ
  finished : Bool

/-- The runtime with its iterators, each under its transaction. -/
structure JsRuntime (α : Type*) where
  /-- `execResponses`, in the same form as those of the Python runtimes. -/
  buffers : Buffers α
  /-- `execResolvers`: the index that a `next()` waits for. -/
  execResolvers : TxId → Option ℕ
  iterators : TxId → Option JsIterator
  /-- The calls of `next()` so far. -/
  asked : TxId → ℕ
  /-- What the promises of these calls were settled with. -/
  settled : TxId → List (Outcome α)
  /-- The packets that have arrived. -/
  arrived : Finset (TxId × ℕ)

/-- A call of the runtime, under the transaction that it sends, a `next()`, or an arrival. -/
inductive JsAct
  | callIter (txId : TxId)
  | callIterMethod (txId : TxId)
  | define (txId : TxId)
  | delete (txId : TxId)
  | next (txId : TxId)
  /-- `listen` gets the packet of a transaction with an index. -/
  | arrive (txId : TxId) (idx : ℕ)

/-- The transaction of a step. -/
def JsAct.txId : JsAct → TxId
  | .callIter txId | .callIterMethod txId | .define txId | .delete txId | .next txId
  | .arrive txId _ => txId

namespace JsRuntime

/-- A runtime that has called nothing. -/
def initial : JsRuntime α := ⟨.empty, fun _ => none, fun _ => none, fun _ => 0, fun _ => [], ∅⟩

/-- The promise of a `next()` is settled. -/
def settle (s : JsRuntime α) (txId : TxId) (o : Outcome α) : JsRuntime α :=
  { s with settled := Function.update s.settled txId (s.settled txId ++ [o]) }

/-- An iterator is changed. -/
def setIterator (s : JsRuntime α) (txId : TxId) (it : JsIterator) : JsRuntime α :=
  { s with iterators := Function.update s.iterators txId (some it) }

/-- `setFinish` of the iterator of a transaction. -/
def setFinish (s : JsRuntime α) (txId : TxId) : JsRuntime α :=
  match s.iterators txId with
  | some it => s.setIterator txId { it with finished := it.iter || it.finished }
  | none => s

/-- `registerExecResolver`. There is no next state when it throws. -/
def registerExecResolver (s : JsRuntime α) (txId : TxId) (index : ℕ) : Option (JsRuntime α) :=
  match s.buffers.execResponses txId index with
  | some reply =>
    let s := { s with buffers := s.buffers.pop txId index }
    match reply.body with
    | .ok _ => some ((if reply.finished then s.setFinish txId else s).settle txId reply.outcome)
    | .error _ => some (s.settle txId reply.outcome)
  | none =>
    match s.execResolvers txId with
    | some _ => none
    | none => some { s with execResolvers := Function.update s.execResolvers txId (some index) }

/-- `registerExecResponse`. -/
def registerExecResponse (s : JsRuntime α) (txId : TxId) (index : ℕ) (reply : Reply α) :
    JsRuntime α :=
  if s.execResolvers txId = some index then
    let s := { s with execResolvers := Function.update s.execResolvers txId none }
    (if reply.finished then s.setFinish txId else s).settle txId reply.outcome
  else { s with buffers := s.buffers.set txId index (some reply) }

/-- `idx += 1` behind a call of `registerExecResolver` that has returned. -/
def advance (s : JsRuntime α) (txId : TxId) : JsRuntime α :=
  match s.iterators txId with
  | some it => s.setIterator txId { it with idx := it.idx + 1 }
  | none => s

/-- `next()` of an iterator. A promise whose executor throws is never settled. -/
def next (s : JsRuntime α) (txId : TxId) (it : JsIterator) : JsRuntime α :=
  let s := { s with asked := Function.update s.asked txId (s.asked txId + 1) }
  if it.finished then s.settle txId .stops
  else
    match s.registerExecResolver txId it.idx with
    | some s => s.advance txId
    | none => s

/-- A step, where `replies` are the replies to each transaction, of which each arrives once. A call
has a transaction of its own. -/
def step (replies : TxId → List (Reply α)) (s : JsRuntime α) : JsAct → Option (JsRuntime α)
  | .callIter txId | .callIterMethod txId =>
    match s.iterators txId with
    | some _ => none
    | none => some (s.setIterator txId ⟨true, 0, false⟩)
  | .define txId | .delete txId =>
    match s.iterators txId with
    | some _ => none
    | none => some ((s.setIterator txId ⟨false, 0, false⟩).next txId ⟨false, 0, false⟩)
  | .next txId =>
    match s.iterators txId with
    | some it => if it.iter then some (s.next txId it) else none
    | none => none
  | .arrive txId idx =>
    match (replies txId)[idx]? with
    | some reply =>
      if (txId, idx) ∈ s.arrived then none
      else some ({ s with arrived := insert (txId, idx) s.arrived }.registerExecResponse txId idx
        reply)
    | none => none

/-- The calls of `next()` of a transaction come one after the other. -/
def Sequential (txId : TxId) (s : JsRuntime α) : JsAct → Prop
  | .next txId' => txId' = txId → s.execResolvers txId = none
  | _ => True

/-- The condition on the steps: no `next()` comes when the iterator has handed out all replies and was
not told so. -/
def Careful (replies : TxId → List (Reply α)) (txId : TxId) (s : JsRuntime α) : JsAct → Prop
  | .next txId' => txId' = txId → ∀ it ∈ s.iterators txId, it.iter = true →
    it.finished = false → it.idx < (replies txId).length
  | _ => True

instance (txId : TxId) (s : JsRuntime α) (a : JsAct) : Decidable (Sequential txId s a) :=
  match a with
  | .next txId' => inferInstanceAs (Decidable (txId' = txId → s.execResolvers txId = none))
  | .callIter _ | .callIterMethod _ | .define _ | .delete _ | .arrive _ _ => .isTrue trivial

instance (replies : TxId → List (Reply α)) (txId : TxId) (s : JsRuntime α) (a : JsAct) :
    Decidable (Careful replies txId s a) :=
  match a with
  | .next txId' => inferInstanceAs (Decidable (txId' = txId → ∀ it ∈ s.iterators txId,
      it.iter = true → it.finished = false → it.idx < (replies txId).length))
  | .callIter _ | .callIterMethod _ | .define _ | .delete _ | .arrive _ _ => .isTrue trivial

/-- The promises of a transaction settle as they should. -/
structure Settles (replies : List (Reply α)) (txId : TxId) (s : JsRuntime α) : Prop where
  /-- What they were settled with depends on nothing but the replies. -/
  results : Gives replies (s.settled txId)
  /-- All but the one that waits are settled. -/
  counted : s.asked txId = (s.settled txId).length + if s.execResolvers txId = none then 0 else 1
  /-- The one that waits, waits for a reply that is still to come. -/
  waits : ∀ index, s.execResolvers txId = some index →
    index < replies.length ∧ (txId, index) ∉ s.arrived

end JsRuntime

/-! ## Complete replies -/

section CompleteReplies

variable {replies : List (Reply α)} {reply : Reply α} {n : ℕ}

theorem CompleteReplies.length_pos (h : CompleteReplies replies) : 0 < replies.length := by
  cases replies with
  | nil => exact absurd h id
  | cons reply replies => exact Nat.succ_pos _

/-- A call with the number of a reply gives this reply. -/
theorem CompleteReplies.outcome_eq (h : CompleteReplies replies) (hr : replies[n]? = some reply) :
    outcome replies n = some reply.outcome := by
  induction replies generalizing n with
  | nil => exact absurd h id
  | cons first replies ih =>
    obtain ⟨finished, body⟩ := first
    cases n with
    | zero =>
      obtain rfl := Option.some.inj hr
      cases body with
      | error reason => rfl
      | ok out =>
        cases finished with
        | true => rfl
        | false => rfl
    | succ n =>
      -- There is a reply behind the first, so the first is neither finished nor a failure.
      cases replies with
      | nil => cases hr
      | cons second replies =>
        obtain ⟨hfinished, ⟨out, hbody⟩, htail⟩ := h
        dsimp only at hfinished hbody
        subst hfinished hbody
        exact ih htail hr

/-- A call behind the last reply gives nothing more. -/
theorem CompleteReplies.outcome_stops (h : CompleteReplies replies) (hn : replies.length ≤ n) :
    outcome replies n = some .stops := by
  induction replies generalizing n with
  | nil => exact absurd h id
  | cons first replies ih =>
    obtain ⟨finished, body⟩ := first
    cases n with
    | zero => exact absurd hn (Nat.not_succ_le_zero _)
    | succ n =>
      cases replies with
      | nil =>
        change finished = true at h
        subst h
        cases body with
        | error reason => rfl
        | ok out => rfl
      | cons second replies =>
        obtain ⟨hfinished, ⟨out, hbody⟩, htail⟩ := h
        dsimp only at hfinished hbody
        subst hfinished hbody
        exact ih htail (Nat.le_of_succ_le_succ hn)

/-- The last reply is the one that is marked as finished. -/
theorem CompleteReplies.finished_iff (h : CompleteReplies replies) (hr : replies[n]? = some reply) :
    reply.finished = true ↔ n + 1 = replies.length := by
  induction replies generalizing n with
  | nil => exact absurd h id
  | cons first replies ih =>
    cases replies with
    | nil =>
      cases n with
      | zero =>
        obtain rfl := Option.some.inj hr
        exact iff_of_true h rfl
      | succ n => cases hr
    | cons second replies =>
      obtain ⟨hfinished, -, htail⟩ := h
      cases n with
      | zero =>
        obtain rfl := Option.some.inj hr
        rw [hfinished]
        simp
      | succ n =>
        rw [ih htail hr]
        simp

/-- Only the last reply may be a failure. -/
theorem CompleteReplies.ok_of_lt (h : CompleteReplies replies) (hr : replies[n]? = some reply)
    (hn : n + 1 < replies.length) : ∃ out, reply.body = .ok out := by
  induction replies generalizing n with
  | nil => exact absurd h id
  | cons first replies ih =>
    cases replies with
    | nil =>
      rw [List.length_singleton] at hn
      omega
    | cons second replies =>
      obtain ⟨-, hok, htail⟩ := h
      cases n with
      | zero =>
        obtain rfl := Option.some.inj hr
        exact hok
      | succ n => exact ih htail hr (Nat.lt_of_succ_lt_succ hn)

end CompleteReplies

/-! ## One transaction -/

/-- What the runtime has for one transaction. -/
structure JsView (α : Type*) where
  resolver : Option ℕ
  iterator : Option JsIterator
  asked : ℕ
  settled : List (Outcome α)
  kept : ℕ → Option (Reply α)
  arrived : ℕ → Prop

/-- The invariant of one transaction with these replies. -/
structure Orderly (replies : List (Reply α)) (v : JsView α) : Prop where
  results : Gives replies v.settled
  counted : v.asked = v.settled.length + if v.resolver = none then 0 else 1
  arrived : ∀ i, v.arrived i → i < replies.length
  kept : ∀ i reply, v.settled.length ≤ i →
    (v.kept i = some reply ↔ v.arrived i ∧ replies[i]? = some reply)
  waiting : ∀ i, v.resolver = some i → i = v.settled.length ∧ ¬ v.arrived i
  finished : ∀ it, v.iterator = some it → it.finished = true →
    replies.length ≤ v.settled.length ∧ v.resolver = none
  going : ∀ it, v.iterator = some it → it.finished = false →
    it.idx = v.asked ∧ v.settled.length ≤ replies.length
  unsent : v.iterator = none → v.asked = 0

section View

variable {replies : List (Reply α)} {reply : Reply α} {v v' : JsView α} {it : JsIterator} {i : ℕ}

/-- A transaction that is not sent waits for nothing. -/
theorem Orderly.resolver_unsent (h : Orderly replies v) (hit : v.iterator = none) :
    v.resolver = none ∧ v.settled = [] := by
  have hcounted := h.counted
  rw [h.unsent hit] at hcounted
  have hlength : v.settled.length = 0 := by omega
  refine ⟨?_, List.eq_nil_of_length_eq_zero hlength⟩
  by_contra hne
  rw [if_neg hne] at hcounted
  omega

/-- A new iterator. -/
theorem Orderly.create (h : Orderly replies v) (hit : v.iterator = none) (b : Bool) :
    Orderly replies { v with iterator := some ⟨b, 0, false⟩ } := by
  refine ⟨h.results, h.counted, h.arrived, h.kept, h.waiting, ?_, ?_, nofun⟩
  · rintro it ⟨⟩ hfinished
    cases hfinished
  · rintro it ⟨⟩ -
    refine ⟨(h.unsent hit).symm, ?_⟩
    rw [(h.resolver_unsent hit).2]
    exact Nat.zero_le _

/-- A `next()` behind the last reply. -/
theorem Orderly.stop (h : Orderly replies v) (hc : CompleteReplies replies)
    (hit : v.iterator = some it) (hfinished : it.finished = true) :
    Orderly replies { v with asked := v.asked + 1, settled := v.settled ++ [.stops] } := by
  obtain ⟨hle, hresolver⟩ := h.finished it hit hfinished
  have hlength : (v.settled ++ [Outcome.stops]).length = v.settled.length + 1 := List.length_append
  refine ⟨h.results.append (hc.outcome_stops hle), ?_, h.arrived, fun i r hi => ?_, ?_, ?_, ?_, ?_⟩
  · show v.asked + 1 = (v.settled ++ [Outcome.stops]).length + if v.resolver = none then 0 else 1
    have hcounted := h.counted
    omega
  · refine h.kept i r ?_
    change (v.settled ++ [Outcome.stops]).length ≤ i at hi
    omega
  · intro i hi
    change v.resolver = some i at hi
    rw [hresolver] at hi
    cases hi
  · intro it' hit' _
    refine ⟨?_, hresolver⟩
    show replies.length ≤ (v.settled ++ [Outcome.stops]).length
    omega
  · intro it' hit' hgoing
    obtain rfl := Option.some.inj (hit.symm.trans hit')
    rw [hfinished] at hgoing
    cases hgoing
  · intro hnone
    change v.iterator = none at hnone
    rw [hit] at hnone
    cases hnone

/-- A `next()` settles with its reply, whether the reply was there before or comes now. -/
theorem Orderly.deliver (h : Orderly replies v) (it : JsIterator) (hc : CompleteReplies replies)
    (hr : replies[v.settled.length]? = some reply)
    (hsettled : v'.settled = v.settled ++ [reply.outcome])
    (hasked : v'.asked = v.settled.length + 1) (hresolver : v'.resolver = none)
    (harrived : ∀ i, v'.arrived i ↔ v.arrived i ∨ i = v.settled.length)
    (hkept : ∀ i, v.settled.length < i → v'.kept i = v.kept i)
    (hit : v'.iterator = some it) (hfinished : it.finished = true → reply.finished = true)
    (hgoing : it.finished = false → it.idx = v.settled.length + 1) : Orderly replies v' := by
  have hlt : v.settled.length < replies.length := (List.getElem?_eq_some_iff.mp hr).1
  have hlength : v'.settled.length = v.settled.length + 1 := by
    rw [hsettled]
    exact List.length_append
  refine ⟨?_, ?_, fun i hi => ?_, fun i r hi => ?_, ?_, ?_, ?_, ?_⟩
  · rw [hsettled]
    exact h.results.append (hc.outcome_eq hr)
  · rw [hasked, hlength, hresolver, if_pos rfl]
  · rcases (harrived i).mp hi with hi | rfl
    · exact h.arrived i hi
    · exact hlt
  · have hne : i ≠ v.settled.length := by omega
    rw [hkept i (by omega), h.kept i r (by omega), harrived i]
    simp only [hne, or_false]
  · intro i hi
    rw [hresolver] at hi
    cases hi
  · intro it' hit' hlast
    obtain rfl := Option.some.inj (hit.symm.trans hit')
    have hend := (hc.finished_iff hr).mp (hfinished hlast)
    exact ⟨by omega, hresolver⟩
  · intro it' hit' hmore
    obtain rfl := Option.some.inj (hit.symm.trans hit')
    rw [hgoing hmore, hasked]
    exact ⟨rfl, by omega⟩
  · intro hnone
    rw [hit] at hnone
    cases hnone

/-- A `next()` waits. -/
theorem Orderly.wait (h : Orderly replies v) (hit : v.iterator = some it)
    (hgoing : it.finished = false) (hkept : v.kept it.idx = none) (hresolver : v.resolver = none) :
    Orderly replies { v with
      asked := v.asked + 1, resolver := some it.idx,
      iterator := some { it with idx := it.idx + 1 } } := by
  obtain ⟨hidx, hle⟩ := h.going it hit hgoing
  have hcounted := h.counted
  rw [if_pos hresolver] at hcounted
  refine ⟨h.results, ?_, h.arrived, h.kept, ?_, ?_, ?_, nofun⟩
  · show v.asked + 1 = v.settled.length + _
    rw [if_neg (by nofun)]
    omega
  · intro i hi
    obtain rfl := Option.some.inj hi
    refine ⟨by show it.idx = v.settled.length; omega, fun harrived => ?_⟩
    have hlt := h.arrived it.idx harrived
    have hsome : replies[it.idx]? ≠ none := mt List.getElem?_eq_none_iff.mp (by omega)
    obtain ⟨r, hr⟩ := Option.ne_none_iff_exists'.mp hsome
    rw [(h.kept it.idx r (by omega)).mpr ⟨harrived, hr⟩] at hkept
    cases hkept
  · intro it' hit' hlast
    obtain rfl := Option.some.inj hit'
    change it.finished = true at hlast
    rw [hgoing] at hlast
    cases hlast
  · intro it' hit' _
    obtain rfl := Option.some.inj hit'
    exact ⟨by show it.idx + 1 = v.asked + 1; omega, hle⟩

/-- A packet that nobody waits for is kept. -/
theorem Orderly.keep (h : Orderly replies v) (hr : replies[i]? = some reply)
    (hnew : ¬ v.arrived i) (hresolver : v.resolver ≠ some i) :
    Orderly replies { v with
      kept := Function.update v.kept i (some reply), arrived := fun j => v.arrived j ∨ j = i } := by
  refine ⟨h.results, h.counted, ?_, fun j r hj => ?_, fun j hj => ?_, h.finished, h.going, h.unsent⟩
  · rintro j (hj | rfl)
    · exact h.arrived j hj
    · exact (List.getElem?_eq_some_iff.mp hr).1
  · show Function.update v.kept i (some reply) j = some r ↔ (v.arrived j ∨ j = i) ∧ _
    by_cases heq : j = i
    · subst heq
      rw [Function.update_self, hr]
      simp
    · rw [Function.update_of_ne heq, h.kept j r hj]
      simp only [heq, or_false]
  · obtain ⟨hlength, hno⟩ := h.waiting j hj
    refine ⟨hlength, ?_⟩
    rintro (harrived | rfl)
    · exact hno harrived
    · exact hresolver hj

end View

namespace JsRuntime

/-! ## What the functions do to one transaction -/

/-- What the runtime has for a transaction. -/
def view (s : JsRuntime α) (txId : TxId) : JsView α where
  resolver := s.execResolvers txId
  iterator := s.iterators txId
  asked := s.asked txId
  settled := s.settled txId
  kept := s.buffers.execResponses txId
  arrived i := (txId, i) ∈ s.arrived

variable {replies : TxId → List (Reply α)} {s s' : JsRuntime α} {txId other : TxId}
  {it : JsIterator} {idx : ℕ} {reply : Reply α} {o : Outcome α}

section Frame

variable (h : other ≠ txId)
include h

theorem view_settle_of_ne : (s.settle txId o).view other = s.view other := by
  simp [view, settle, Function.update_of_ne h]

theorem view_setIterator_of_ne : (s.setIterator txId it).view other = s.view other := by
  simp [view, setIterator, Function.update_of_ne h]

theorem view_setFinish_of_ne : (s.setFinish txId).view other = s.view other := by
  unfold setFinish
  split
  · exact view_setIterator_of_ne h
  · rfl

theorem view_advance_of_ne : (s.advance txId).view other = s.view other := by
  unfold advance
  split
  · exact view_setIterator_of_ne h
  · rfl

/-- The entries of another transaction are not touched. -/
theorem execResponses_set_of_ne {b : Buffers α} {entry : Option (Reply α)} :
    (b.set txId idx entry).execResponses other = b.execResponses other :=
  Function.update_of_ne h ..

theorem view_registerExecResolver_of_ne (hs : s.registerExecResolver txId idx = some s') :
    s'.view other = s.view other := by
  have hpop : JsRuntime.view { s with buffers := s.buffers.pop txId idx } other = s.view other := by
    simp only [view, Buffers.pop, execResponses_set_of_ne h]
  unfold registerExecResolver at hs
  split at hs
  · split at hs
    · obtain rfl := Option.some.inj hs
      rw [view_settle_of_ne h]
      split_ifs
      · rw [view_setFinish_of_ne h, hpop]
      · exact hpop
    · obtain rfl := Option.some.inj hs
      rw [view_settle_of_ne h, hpop]
  · split at hs
    · cases hs
    · obtain rfl := Option.some.inj hs
      simp [view, Function.update_of_ne h]

theorem view_next_of_ne : (s.next txId it).view other = s.view other := by
  have hasked : JsRuntime.view { s with
      asked := Function.update s.asked txId (s.asked txId + 1) } other = s.view other := by
    simp [view, Function.update_of_ne h]
  unfold next
  dsimp only
  split_ifs
  · rw [view_settle_of_ne h, hasked]
  · split
    · rename_i s₁ hs
      rw [view_advance_of_ne h, view_registerExecResolver_of_ne h hs, hasked]
    · exact hasked

theorem view_registerExecResponse_of_ne :
    (s.registerExecResponse txId idx reply).view other = s.view other := by
  have hresolver : JsRuntime.view { s with
      execResolvers := Function.update s.execResolvers txId none } other = s.view other := by
    simp [view, Function.update_of_ne h]
  unfold registerExecResponse
  dsimp only
  split_ifs
  · rw [view_settle_of_ne h, view_setFinish_of_ne h, hresolver]
  · rw [view_settle_of_ne h, hresolver]
  · simp only [view, execResponses_set_of_ne h]

/-- A step of another transaction is not seen. -/
theorem view_arrived_of_ne :
    JsRuntime.view { s with arrived := insert (txId, idx) s.arrived } other = s.view other := by
  simp [view, h]

end Frame

/-- What `next()` of an iterator in order does: it is told that it is at the end, it finds its reply,
or it waits. -/
theorem next_cases (hit : s.iterators txId = some it) (hresolver : s.execResolvers txId = none) :
    (it.finished = true ∧ (s.next txId it).view txId =
      { s.view txId with
        asked := s.asked txId + 1, settled := s.settled txId ++ [Outcome.stops] }) ∨
    (it.finished = false ∧ s.buffers.execResponses txId it.idx = none ∧
      (s.next txId it).view txId =
        { s.view txId with
          asked := s.asked txId + 1, resolver := some it.idx,
          iterator := some { it with idx := it.idx + 1 } }) ∨
    ∃ reply fin, it.finished = false ∧ s.buffers.execResponses txId it.idx = some reply ∧
      (fin = true → reply.finished = true) ∧
      (s.next txId it).view txId =
        { s.view txId with
          asked := s.asked txId + 1, settled := s.settled txId ++ [reply.outcome],
          kept := Function.update (s.buffers.execResponses txId) it.idx none,
          iterator := some { it with idx := it.idx + 1, finished := fin } } := by
  obtain ⟨iter, i, finished⟩ := it
  cases finished with
  | true =>
    refine .inl ⟨rfl, ?_⟩
    simp [next, view, settle]
  | false =>
    cases hkept : s.buffers.execResponses txId i with
    | none =>
      refine .inr (.inl ⟨rfl, rfl, ?_⟩)
      simp [next, registerExecResolver, hkept, hresolver, advance, hit, view, setIterator]
    | some reply =>
      obtain ⟨last, body⟩ := reply
      cases body with
      | error reason =>
        refine .inr (.inr ⟨_, false, rfl, rfl, nofun, ?_⟩)
        simp [next, registerExecResolver, hkept, advance, hit, view, setIterator, settle,
          Buffers.pop, Buffers.set]
      | ok out =>
        cases last with
        | false =>
          refine .inr (.inr ⟨_, false, rfl, rfl, nofun, ?_⟩)
          simp [next, registerExecResolver, hkept, advance, hit, view, setIterator, settle,
            Buffers.pop, Buffers.set]
        | true =>
          refine .inr (.inr ⟨_, iter, rfl, rfl, fun _ => rfl, ?_⟩)
          simp [next, registerExecResolver, hkept, advance, hit, view, setIterator, settle,
            setFinish, Buffers.pop, Buffers.set]

/-- A step of another transaction is not seen. -/
theorem view_step_of_ne {a : JsAct} (h : other ≠ a.txId) (hs : step replies s a = some s') :
    s'.view other = s.view other := by
  cases a with
  | callIter txId | callIterMethod txId =>
    change other ≠ txId at h
    simp only [step] at hs
    split at hs
    · cases hs
    · obtain rfl := Option.some.inj hs
      exact view_setIterator_of_ne h
  | define txId | delete txId =>
    change other ≠ txId at h
    simp only [step] at hs
    split at hs
    · cases hs
    · obtain rfl := Option.some.inj hs
      rw [view_next_of_ne h, view_setIterator_of_ne h]
  | next txId =>
    change other ≠ txId at h
    simp only [step] at hs
    split at hs
    · split_ifs at hs
      obtain rfl := Option.some.inj hs
      exact view_next_of_ne h
    · cases hs
  | arrive txId idx =>
    change other ≠ txId at h
    simp only [step] at hs
    split at hs
    · split_ifs at hs
      obtain rfl := Option.some.inj hs
      rw [view_registerExecResponse_of_ne h, view_arrived_of_ne h]
    · cases hs

/-! ## One step of a transaction -/

/-- A new iterator. -/
theorem orderly_setIterator (h : Orderly (replies txId) (s.view txId))
    (hit : s.iterators txId = none) (b : Bool) :
    Orderly (replies txId) ((s.setIterator txId ⟨b, 0, false⟩).view txId) := by
  have hview : (s.setIterator txId ⟨b, 0, false⟩).view txId =
      { s.view txId with iterator := some ⟨b, 0, false⟩ } := by
    simp [view, setIterator]
  rw [hview]
  exact h.create hit b

/-- A `next()` keeps the transaction orderly. -/
theorem orderly_next (h : Orderly (replies txId) (s.view txId))
    (hc : CompleteReplies (replies txId)) (hit : s.iterators txId = some it)
    (hresolver : s.execResolvers txId = none) :
    Orderly (replies txId) ((s.next txId it).view txId) := by
  rcases next_cases hit hresolver with ⟨hfinished, hview⟩ | ⟨hgoing, hkept, hview⟩ |
    ⟨reply, fin, hgoing, hkept, hfin, hview⟩
  · rw [hview]
    exact h.stop hc hit hfinished
  · rw [hview]
    exact h.wait hit hgoing hkept hresolver
  · -- The reply is the next one of the transaction, and has arrived.
    obtain ⟨hidx, -⟩ := h.going it hit hgoing
    have hcounted : s.asked txId =
      (s.settled txId).length + if s.execResolvers txId = none then 0 else 1 := h.counted
    rw [if_pos hresolver] at hcounted
    change it.idx = s.asked txId at hidx
    have hthis : it.idx = (s.settled txId).length := by omega
    obtain ⟨harrived, hr⟩ := (h.kept it.idx reply (by show (s.settled txId).length ≤ _; omega)).mp
      hkept
    rw [hthis] at hr harrived
    rw [hview]
    refine h.deliver { it with idx := it.idx + 1, finished := fin } hc hr rfl ?_ hresolver
      (fun i => ?_) (fun i hi => ?_) rfl hfin fun _ => ?_
    · show s.asked txId + 1 = (s.settled txId).length + 1
      omega
    · refine ⟨.inl, ?_⟩
      rintro (hi | rfl)
      · exact hi
      · exact harrived
    · have hne : i ≠ it.idx := by
        change (s.settled txId).length < i at hi
        omega
      exact Function.update_of_ne hne ..
    · show it.idx + 1 = (s.settled txId).length + 1
      omega

/-- An arrival keeps the transaction orderly. -/
theorem orderly_arrive (h : Orderly (replies txId) (s.view txId))
    (hc : CompleteReplies (replies txId)) (hr : (replies txId)[idx]? = some reply)
    (hnew : (txId, idx) ∉ s.arrived) :
    Orderly (replies txId) (({ s with arrived := insert (txId, idx) s.arrived }.registerExecResponse
      txId idx reply).view txId) := by
  by_cases hresolver : s.execResolvers txId = some idx
  · -- The `next()` that waits is given its reply.
    obtain ⟨hidx, -⟩ := h.waiting idx hresolver
    change idx = (s.settled txId).length at hidx
    cases hit : s.iterators txId with
    | none =>
      have hnone : s.execResolvers txId = none := (h.resolver_unsent hit).1
      rw [hresolver] at hnone
      cases hnone
    | some it =>
      have hgoing : it.finished = false := by
        by_contra hne
        have hnone : s.execResolvers txId = none :=
          (h.finished it hit (by simpa using hne)).2
        rw [hresolver] at hnone
        cases hnone
      obtain ⟨hasked, -⟩ := h.going it hit hgoing
      have hcounted : s.asked txId =
        (s.settled txId).length + if s.execResolvers txId = none then 0 else 1 := h.counted
      rw [if_neg (by rw [hresolver]; nofun)] at hcounted
      change it.idx = s.asked txId at hasked
      have hview : ({ s with arrived := insert (txId, idx) s.arrived }.registerExecResponse
          txId idx reply).view txId = { s.view txId with
            resolver := none, settled := s.settled txId ++ [reply.outcome],
            iterator := some { it with finished := reply.finished && it.iter },
            arrived := fun j => (txId, j) ∈ insert (txId, idx) s.arrived } := by
        obtain ⟨last, body⟩ := reply
        obtain ⟨iter, i, finished⟩ := it
        change finished = false at hgoing
        subst hgoing
        cases last with
        | true => simp [registerExecResponse, hresolver, setFinish, hit, view, settle, setIterator]
        | false => simp [registerExecResponse, hresolver, hit, view, settle]
      subst hidx
      rw [hview]
      refine h.deliver { it with finished := reply.finished && it.iter } hc hr rfl ?_ rfl
        (fun i => ?_) (fun i hi => rfl) rfl (fun hfin => ?_) fun _ => ?_
      · show s.asked txId = (s.settled txId).length + 1
        omega
      · show (txId, i) ∈ insert (txId, (s.settled txId).length) s.arrived ↔
          (txId, i) ∈ s.arrived ∨ i = (s.settled txId).length
        rw [Finset.mem_insert, or_comm]
        simp
      · exact (Bool.and_eq_true_iff.mp hfin).1
      · show it.idx = (s.settled txId).length + 1
        omega
  · have hview : ({ s with arrived := insert (txId, idx) s.arrived }.registerExecResponse
        txId idx reply).view txId = { s.view txId with
          kept := Function.update (s.buffers.execResponses txId) idx (some reply),
          arrived := fun j => (txId, j) ∈ s.arrived ∨ j = idx } := by
      simp [registerExecResponse, hresolver, view, Buffers.set, or_comm]
    rw [hview]
    exact h.keep hr hnew hresolver

/-- A step keeps the transaction orderly. -/
theorem orderly_step (h : Orderly (replies txId) (s.view txId))
    (hc : CompleteReplies (replies txId)) {a : JsAct} (hseq : Sequential txId s a)
    (hs : step replies s a = some s') :
    Orderly (replies txId) (s'.view txId) := by
  by_cases hne : txId = a.txId
  · cases a with
    | callIter t | callIterMethod t =>
      obtain rfl : txId = t := hne
      simp only [step] at hs
      split at hs
      · cases hs
      · rename_i hit
        obtain rfl := Option.some.inj hs
        exact orderly_setIterator h hit true
    | define t | delete t =>
      obtain rfl : txId = t := hne
      simp only [step] at hs
      split at hs
      · cases hs
      · rename_i hit
        obtain rfl := Option.some.inj hs
        exact orderly_next (orderly_setIterator h hit false) hc (Function.update_self ..)
          (h.resolver_unsent hit).1
    | next t =>
      obtain rfl : txId = t := hne
      simp only [step] at hs
      split at hs
      · rename_i it hit
        split_ifs at hs
        obtain rfl := Option.some.inj hs
        exact orderly_next h hc hit (hseq rfl)
      · cases hs
    | arrive t idx =>
      obtain rfl : txId = t := hne
      simp only [step] at hs
      split at hs
      · rename_i reply hr
        split_ifs at hs with hnew
        obtain rfl := Option.some.inj hs
        exact orderly_arrive h hc hr hnew
      · cases hs
  · rw [view_step_of_ne hne hs]
    exact h

/-- What a `next()` waits for. -/
theorem resolver_next (hit : s.iterators txId = some it) (hresolver : s.execResolvers txId = none) :
    (s.next txId it).execResolvers txId = none ∨
      it.finished = false ∧ (s.next txId it).execResolvers txId = some it.idx := by
  rcases next_cases hit hresolver with ⟨-, hview⟩ | ⟨hgoing, -, hview⟩ | ⟨_, _, -, -, -, hview⟩
  · exact .inl ((congrArg JsView.resolver hview).trans hresolver)
  · exact .inr ⟨hgoing, congrArg JsView.resolver hview⟩
  · exact .inl ((congrArg JsView.resolver hview).trans hresolver)

/-- An arrival gives no `next()` anything to wait for. -/
theorem resolver_registerExecResponse (s : JsRuntime α) (txId : TxId) (idx : ℕ) (reply : Reply α) :
    (s.registerExecResponse txId idx reply).execResolvers txId = none ∨
      (s.registerExecResponse txId idx reply).execResolvers txId = s.execResolvers txId := by
  have hfinish : ∀ s : JsRuntime α, (s.setFinish txId).execResolvers = s.execResolvers := by
    intro s
    unfold setFinish
    split
    · rfl
    · rfl
  unfold registerExecResponse
  dsimp only
  split_ifs
  · refine .inl ?_
    show (setFinish _ txId).execResolvers txId = none
    rw [hfinish]
    exact Function.update_self ..
  · exact .inl (Function.update_self ..)
  · exact .inr rfl

/-- A careful step lets no `next()` wait for a reply that does not exist. -/
theorem resolver_step (h : Orderly (replies txId) (s.view txId))
    (hc : CompleteReplies (replies txId)) {a : JsAct} (hseq : Sequential txId s a)
    (hok : Careful replies txId s a)
    (hlt : ∀ i, s.execResolvers txId = some i → i < (replies txId).length)
    (hs : step replies s a = some s') {i : ℕ} (hi : s'.execResolvers txId = some i) :
    i < (replies txId).length := by
  by_cases hne : txId = a.txId
  · cases a with
    | callIter t | callIterMethod t =>
      simp only [step] at hs
      split at hs
      · cases hs
      · obtain rfl := Option.some.inj hs
        exact hlt i hi
    | define t | delete t =>
      obtain rfl : txId = t := hne
      simp only [step] at hs
      split at hs
      · cases hs
      · rename_i hit
        obtain rfl := Option.some.inj hs
        rcases resolver_next (s := s.setIterator txId ⟨false, 0, false⟩) (Function.update_self ..)
          (h.resolver_unsent hit).1 with hnone | ⟨-, hsome⟩
        · rw [hnone] at hi
          cases hi
        · obtain rfl : 0 = i := Option.some.inj (hsome.symm.trans hi)
          exact hc.length_pos
    | next t =>
      obtain rfl : txId = t := hne
      simp only [step] at hs
      split at hs
      · rename_i it hit
        split_ifs at hs with hiter
        obtain rfl := Option.some.inj hs
        rcases resolver_next hit (hseq rfl) with hnone | ⟨hgoing, hsome⟩
        · rw [hnone] at hi
          cases hi
        · obtain rfl : it.idx = i := Option.some.inj (hsome.symm.trans hi)
          exact hok rfl it hit hiter hgoing
      · cases hs
    | arrive t idx =>
      obtain rfl : txId = t := hne
      simp only [step] at hs
      split at hs
      · rename_i reply hr
        split_ifs at hs with hnew
        obtain rfl := Option.some.inj hs
        rcases resolver_registerExecResponse { s with arrived := insert (txId, idx) s.arrived } txId
          idx reply with hnone | hsame
        · rw [hnone] at hi
          cases hi
        · exact hlt i (hsame.symm.trans hi)
      · cases hs
  · have hresolver := congrArg JsView.resolver (view_step_of_ne hne hs)
    exact hlt i (hresolver.symm.trans hi)

/-- A `next()` that is not careful waits for a reply that does not exist. -/
theorem careful_of_waits (h : Orderly (replies txId) (s.view txId)) {a : JsAct}
    (hseq : Sequential txId s a) (hs : step replies s a = some s')
    (hlt : ∀ i, s'.execResolvers txId = some i → i < (replies txId).length) :
    Careful replies txId s a := by
  cases a with
  | callIter t | callIterMethod t | define t | delete t | arrive t idx => trivial
  | next t =>
    rintro rfl it hit hiter hgoing
    simp only [step, Option.mem_def.mp hit, if_pos hiter] at hs
    obtain rfl := Option.some.inj hs
    rcases next_cases hit (hseq rfl) with ⟨hfinished, -⟩ | ⟨-, -, hview⟩ | ⟨reply, _, -, hkept, -, -⟩
    · rw [hgoing] at hfinished
      cases hfinished
    · exact hlt it.idx (congrArg JsView.resolver hview)
    · -- A reply that was kept has arrived, so it exists.
      obtain ⟨hidx, -⟩ := h.going it hit hgoing
      have hcounted : s.asked t =
        (s.settled t).length + if s.execResolvers t = none then 0 else 1 := h.counted
      change it.idx = s.asked t at hidx
      have hle : (s.settled t).length ≤ it.idx := by omega
      exact h.arrived it.idx ((h.kept it.idx reply hle).mp hkept).1

theorem orderly_initial : Orderly (replies txId) (initial.view txId) :=
  ⟨fun _ _ h => by simp [view, initial] at h, rfl, fun _ h => by simp [view, initial] at h,
    fun _ _ _ => by simp [view, initial, Buffers.empty], nofun, nofun, nofun, fun _ => rfl⟩

/-! ## Runs -/

/-- Whatever the order in which the packets of any number of transactions arrive between the calls of
`next()`: the promises of a transaction with complete replies, whose `next()` come one after the
other, settle as they should, exactly when no `next()` comes to an iterator that has handed out all
replies and was not told so. -/
theorem settles_iff (replies : TxId → List (Reply α)) (txId : TxId)
    (hc : CompleteReplies (replies txId)) (as : List JsAct)
    (hseq : Meets (step replies) (Sequential txId) initial as) :
    Meets (step replies) (Careful replies txId) initial as ↔
      Along (step replies) (Settles (replies txId) txId) initial as := by
  have hsettles : ∀ s : JsRuntime α, Orderly (replies txId) (s.view txId) →
      (∀ i, s.execResolvers txId = some i → i < (replies txId).length) →
      Settles (replies txId) txId s := fun s h hlt =>
    ⟨h.results, h.counted, fun i hi => ⟨hlt i hi, (h.waiting i hi).2⟩⟩
  have hkeep : ∀ (s : JsRuntime α) a s', Orderly (replies txId) (s.view txId) →
      Settles (replies txId) txId s → Sequential txId s a → Careful replies txId s a →
      step replies s a = some s' → Settles (replies txId) txId s' := fun s a s' h hP hq hok hs =>
    hsettles s' (orderly_step h hc hq hs) fun i hi =>
      resolver_step h hc hq hok (fun j hj => (hP.waits j hj).1) hs hi
  -- A `next()` that cannot be called is careful.
  have hstuck : ∀ (s : JsRuntime α) a, step replies s a = none → Careful replies txId s a := by
    intro s a hs
    cases a with
    | callIter t | callIterMethod t | define t | delete t | arrive t idx => trivial
    | next t =>
      rintro rfl it hit hiter
      simp only [step, Option.mem_def.mp hit, if_pos hiter] at hs
      cases hs
  have hinv : ∀ (s : JsRuntime α) a s', Orderly (replies txId) (s.view txId) →
      Sequential txId s a → step replies s a = some s' → Orderly (replies txId) (s'.view txId) :=
    fun s a s' h hq hs => orderly_step h hc hq hs
  have hback : ∀ (s : JsRuntime α) a s', Orderly (replies txId) (s.view txId) →
      Settles (replies txId) txId s → Sequential txId s a → step replies s a = some s' →
      Settles (replies txId) txId s' → Careful replies txId s a := fun s a s' h _ hq hs hP =>
    careful_of_waits h hq hs fun i hi => (hP.waits i hi).1
  exact hseq.iff_along hinv hkeep hback hstuck orderly_initial (hsettles _ orderly_initial nofun)

/-- A run with sequential calls of `next()` leaves the transaction orderly. -/
theorem orderly_of_run (hc : CompleteReplies (replies txId)) {as : List JsAct}
    (hseq : Meets (step replies) (Sequential txId) initial as)
    (hs : run (step replies) initial as = some s) : Orderly (replies txId) (s.view txId) :=
  (ReachVia.init.of_run hseq hs).invariant
    (P := fun s : JsRuntime α => Orderly (replies txId) (s.view txId)) orderly_initial
    fun _ _ _ _ h hq hstep => orderly_step h hc hq hstep

/-- Behind a careful run, what a `next()` waits for exists. -/
theorem resolver_of_run (hc : CompleteReplies (replies txId)) {as : List JsAct}
    (hseq : Meets (step replies) (Sequential txId) initial as)
    (hcareful : Meets (step replies) (Careful replies txId) initial as)
    (hs : run (step replies) initial as = some s) {i : ℕ} (hi : s.execResolvers txId = some i) :
    i < (replies txId).length := by
  have hboth : Meets (step replies)
      (fun s a => Sequential txId s a ∧ Careful replies txId s a) initial as :=
    hseq.and hcareful
  have hinv : Orderly (replies txId) (s.view txId) ∧
      ∀ i, s.execResolvers txId = some i → i < (replies txId).length :=
    (ReachVia.init.of_run hboth hs).invariant
      (P := fun s : JsRuntime α => Orderly (replies txId) (s.view txId) ∧
        ∀ i, s.execResolvers txId = some i → i < (replies txId).length) ⟨orderly_initial, fun _ hi => by cases hi⟩
      fun _ _ _ _ h hok hstep => ⟨orderly_step h.1 hc hok.1 hstep,
        fun _ hi => resolver_step h.1 hc hok.1 hok.2 h.2 hstep hi⟩
  exact hinv.2 i hi

/-- A value, and then a failure. -/
def failing (txId : TxId) : List (Reply ℕ) :=
  if txId = "a" then [⟨false, .ok 1⟩, ⟨true, .error "failed"⟩] else []

theorem complete_failing : CompleteReplies (failing "a") := ⟨rfl, ⟨1, rfl⟩, rfl⟩

/-- The failure arrives while `next()` waits for it. -/
theorem settles_waitingRun : Along (step failing) (Settles (failing "a") "a") initial
    [.callIter "a", .arrive "a" 0, .next "a", .next "a", .arrive "a" 1, .next "a"] :=
  (settles_iff failing "a" complete_failing _ (by decide)).mp (by decide)

/-- The failure arrives before. -/
def keptRun : List JsAct :=
  [.callIter "a", .arrive "a" 0, .arrive "a" 1, .next "a", .next "a", .next "a"]

/-- The `next()` behind the rejection is never settled. -/
theorem keptRun_not_settles : Meets (step failing) (Sequential "a") initial keptRun ∧
    (run (step failing) initial keptRun).map (fun s => (s.asked "a", s.settled "a")) =
      some (3, [.yields 1, .raises "failed"]) ∧
    ¬ Along (step failing) (Settles (failing "a") "a") initial keptRun := by
  refine ⟨by decide, by decide, fun hsettles => ?_⟩
  have hwaits : (run (step failing) initial keptRun).map (fun s => s.execResolvers "a") =
      some (some 2) := by decide
  obtain ⟨s, hs, hresolver⟩ := Option.map_eq_some_iff.mp hwaits
  have hlast : Settles (failing "a") "a" s := by
    rw [← List.append_nil keptRun] at hsettles
    exact hsettles.of_run hs
  exact absurd (hlast.waits 2 hresolver).1 (by decide)

end JsRuntime

end Ailoy
