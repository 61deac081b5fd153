import Ailoy.Bindings.Replies
import Ailoy.Lib.Transition
import Ailoy.Lib.UnorderedMap

/-!
# The table of responses

The keys of `_exec_responses` of `bindings/python/ailoy/runtime.py`, over the calls of `call`,
`call_method`, `define` and `delete` on one `Runtime`, packet by packet. The table is a
`defaultdict(dict)`: looking a transaction up makes an entry for it, and each call deletes its own at
its normal end only. `noLeftovers_iff` says which runs leave no entry behind.
-/

namespace Ailoy

open Transition

variable {α : Type*}

/-! ## The table -/

/-- `_exec_responses`, by transaction and sequence number. -/
abbrev ResponseTable (α : Type*) := UnorderedMap TxId (UnorderedMap ℕ (Reply α))

namespace ResponseTable

/-- The value of `self._exec_responses[txid]`. -/
def get (t : ResponseTable α) (txId : TxId) : UnorderedMap ℕ (Reply α) := (t.lookup txId).getD ∅

/-- The table behind `self._exec_responses[txid]`, which makes an entry where there is none. -/
def touch (t : ResponseTable α) (txId : TxId) : ResponseTable α := UnorderedMap.insertNew t txId ∅

/-- What `_sync_listen` does with a packet. -/
def store (t : ResponseTable α) : Incoming α → ResponseTable α
  | .timeout | .respond _ _ => t
  | .respondExecute txId idx reply => t.insert txId ((t.get txId).insert idx reply)

/-- `self._exec_responses[txid].pop(idx)` -/
def pop (t : ResponseTable α) (txId : TxId) (idx : ℕ) : ResponseTable α :=
  t.insert txId ((t.get txId).erase idx)

/-- `del self._exec_responses[txid]` -/
def del (t : ResponseTable α) (txId : TxId) : ResponseTable α := t.erase txId

end ResponseTable

/-! ## Calls -/

/-- The functions of the runtime. -/
inductive RuntimeFunction
  | call
  | callMethod
  | define
  | delete
  deriving DecidableEq

/-- What a call returns: `None`, the only output, or the list of all. -/
inductive CallValue (α : Type*)
  | none
  | one (out : α)
  | many (outs : List α)

/-- `call` and `call_method` behind their generator. -/
def callValue : List α → CallValue α
  | [] => .none
  | [out] => .one out
  | outs => .many outs

/-- A call on its way: the sequence number it waits for, and the outputs so far. -/
structure RunningCall (α : Type*) where
  txId : TxId
  function : RuntimeFunction
  idx : ℕ
  outs : List α

/-- The runtime, with the ends of the calls so far: what they have returned, or why they raised. -/
structure TableState (α : Type*) where
  table : ResponseTable α
  running : Option (RunningCall α)
  ended : TxId → Option (Except String (CallValue α))

/-- What `listen` of the client does. -/
inductive Listened (α : Type*)
  | packet (p : Incoming α)
  | raises (reason : String)

/-- A call sends its instruction, unless the client fails to, or it comes to the head of its loop. What
`listen` does there plays a part only when the call listens. -/
inductive TableAct (α : Type*)
  | send (txId : TxId) (function : RuntimeFunction) (sent : Bool)
  | iterate (heard : Listened α)

namespace TableState

/-- A runtime before its first call. -/
def initial : TableState α := ⟨∅, none, fun _ => none⟩

/-- A call returns or raises, with this table. -/
def finish (s : TableState α) (txId : TxId) (table : ResponseTable α)
    (result : Except String (CallValue α)) : TableState α where
  table := table
  running := none
  ended := Function.update s.ended txId (some result)

/-- The body of the loop of a generator. -/
def takeNext (s : TableState α) (r : RunningCall α) (reply : Reply α) : TableState α :=
  let table := s.table.pop r.txId r.idx
  match reply.body with
  | .error reason => s.finish r.txId table (.error reason)
  | .ok out =>
    if reply.finished then
      s.finish r.txId (table.del r.txId) (.ok (callValue (r.outs ++ [out])))
    else
      { s with
        table := table
        running := some { r with idx := r.idx + 1, outs := r.outs ++ [out] } }

/-- `define` and `delete` behind their loop: the reply is read and not popped. -/
def takeOnly (s : TableState α) (r : RunningCall α) (reply : Reply α) : TableState α :=
  match reply.body with
  | .error reason => s.finish r.txId s.table (.error reason)
  | .ok _ => s.finish r.txId (s.table.del r.txId) (.ok .none)

/-- The head of a loop: the entry is looked up, and without a reply there, the call listens. -/
def iterate (s : TableState α) (r : RunningCall α) (heard : Listened α) : TableState α :=
  let s := { s with table := s.table.touch r.txId }
  match (s.table.get r.txId).lookup r.idx with
  | none =>
    match heard with
    | .packet p => { s with table := s.table.store p }
    | .raises reason => s.finish r.txId s.table (.error reason)
  | some reply =>
    match r.function with
    | .call | .callMethod => s.takeNext r reply
    | .define | .delete => s.takeOnly r reply

/-- One step. Each call has a transaction of its own, and runs to its end before the next one. -/
def step (s : TableState α) : TableAct α → Option (TableState α)
  | .send txId function sent =>
    if s.running.isNone ∧ (s.ended txId).isNone then
      if sent then some { s with running := some ⟨txId, function, 0, []⟩ }
      else some (s.finish txId s.table (.error "Failed to send packet"))
    else none
  | .iterate heard => s.running.map fun r => s.iterate r heard

/-! ## What the table has to be -/

/-- No call that has ended has an entry, the keys are those of calls in progress, and the table does
not grow. -/
structure NoLeftovers (s : TableState α) : Prop where
  ended : ∀ txId, s.ended txId ≠ none → txId ∉ s.table.keys
  in_progress : ∀ txId ∈ s.table.keys, ∃ r, s.running = some r ∧ r.txId = txId
  bounded : s.table.keys.length ≤ 1

/-- The step takes no reply that is a failure, and when it listens, it hears no packet of another
transaction, and `listen` does not raise. -/
def Clean (s : TableState α) : TableAct α → Prop
  | .send _ _ _ => True
  | .iterate heard => ∀ r, s.running = some r →
    (∀ reply, (s.table.get r.txId).lookup r.idx = some reply → ∃ out, reply.body = .ok out) ∧
    ((s.table.get r.txId).lookup r.idx = none → ∃ p, heard = .packet p ∧
      ∀ txId idx reply, p = .respondExecute txId idx reply → txId = r.txId)

end TableState

/-! ## Keys -/

namespace ResponseTable

variable {t : ResponseTable α} {txId txId' : TxId} {idx : ℕ}

theorem get_touch : (t.touch txId).get txId' = t.get txId' := by
  unfold get touch
  rw [UnorderedMap.lookup_insertNew]
  cases t.lookup txId' with
  | some entries => rfl
  | none =>
    rw [Option.none_or]
    split_ifs <;> rfl

theorem mem_keys_touch : txId' ∈ (t.touch txId).keys ↔ txId' ∈ t.keys ∨ txId' = txId := by
  rw [UnorderedMap.mem_keys_iff, UnorderedMap.mem_keys_iff, touch,
    UnorderedMap.lookup_insertNew_isSome]

theorem mem_keys_pop : txId' ∈ (t.pop txId idx).keys ↔ txId' = txId ∨ txId' ∈ t.keys :=
  AList.mem_insert t

theorem mem_keys_del : txId' ∈ (t.del txId).keys ↔ txId' ≠ txId ∧ txId' ∈ t.keys :=
  AList.mem_erase

theorem mem_keys_store {p : Incoming α} : txId' ∈ (t.store p).keys ↔
    (∃ idx reply, p = .respondExecute txId' idx reply) ∨ txId' ∈ t.keys := by
  cases p with
  | timeout => simp [store]
  | respond txId body => simp [store]
  | respondExecute txId idx reply =>
    refine (AList.mem_insert t).trans (or_congr_left ?_)
    simp [eq_comm]

end ResponseTable

namespace TableState

variable {s s' : TableState α} {r : RunningCall α} {a : TableAct α}

/-- The keys are those of calls in progress. -/
def Tidy (s : TableState α) : Prop := ∀ txId ∈ s.table.keys, ∃ r, s.running = some r ∧ r.txId = txId

/-- A call in progress has not ended. -/
def Alive (s : TableState α) : Prop := ∀ r, s.running = some r → s.ended r.txId = none

/-- While a call is in progress, the only key is its own. -/
theorem tidy_of_running (h : s.running = some r) :
    s.Tidy ↔ ∀ txId ∈ s.table.keys, txId = r.txId := by
  unfold Tidy
  rw [h]
  simp only [Option.some_inj, exists_eq_left']
  exact forall₂_congr fun _ _ => eq_comm

/-- Between two calls there is no key. -/
theorem tidy_of_idle (h : s.running = none) : s.Tidy ↔ ∀ txId, txId ∉ s.table.keys := by
  unfold Tidy
  rw [h]
  simp

theorem noLeftovers_iff_tidy (h : s.Alive) : s.NoLeftovers ↔ s.Tidy := by
  refine ⟨fun hs => hs.in_progress, fun hs => ⟨?_, hs, ?_⟩⟩
  · intro txId hended hmem
    obtain ⟨r, hr, rfl⟩ := hs txId hmem
    exact hended (h r hr)
  · have hnodup := AList.keys_nodup s.table
    unfold Tidy at hs
    generalize s.table.keys = keys at hs hnodup
    match keys with
    | [] | [_] => simp
    | txId :: txId' :: _ =>
      obtain ⟨r, hr, rfl⟩ := hs txId (by simp)
      obtain ⟨r', hr', rfl⟩ := hs txId' (by simp)
      obtain rfl : r = r' := Option.some.inj (hr.symm.trans hr')
      simp at hnodup

/-! ## One step -/

/-- A call that has ended with its entry there leaves it behind. -/
theorem not_tidy_finish {table : ResponseTable α} {txId : TxId}
    {result : Except String (CallValue α)} (h : txId ∈ table.keys) :
    ¬ (s.finish txId table result).Tidy := fun htidy => (tidy_of_idle rfl).mp htidy txId h

/-- A call that has deleted its entry leaves none behind. -/
theorem tidy_finish_del {table : ResponseTable α} {txId : TxId}
    {result : Except String (CallValue α)} (h : ∀ txId' ∈ table.keys, txId' = txId) :
    (s.finish txId (table.del txId) result).Tidy := by
  refine (tidy_of_idle rfl).mpr fun txId' hmem => ?_
  obtain ⟨hne, hmem⟩ := ResponseTable.mem_keys_del.mp hmem
  exact hne (h txId' hmem)

/-- A generator leaves its entry behind exactly when its reply is a failure. -/
theorem tidy_takeNext_iff {reply : Reply α}
    (hkeys : ∀ txId ∈ s.table.keys, txId = r.txId) :
    (s.takeNext r reply).Tidy ↔ ∃ out, reply.body = .ok out := by
  have hpop : ∀ txId ∈ (s.table.pop r.txId r.idx).keys, txId = r.txId := fun txId hmem =>
    (ResponseTable.mem_keys_pop.mp hmem).elim id (hkeys txId)
  unfold takeNext
  cases reply.body with
  | error reason =>
    exact iff_of_false (not_tidy_finish (ResponseTable.mem_keys_pop.mpr (.inl rfl))) (by simp)
  | ok out =>
    refine iff_of_true ?_ ⟨out, rfl⟩
    split_ifs
    · exact tidy_finish_del hpop
    · let next : RunningCall α := { r with idx := r.idx + 1, outs := r.outs ++ [out] }
      exact (tidy_of_running (r := next) rfl).mpr hpop

/-- So do `define` and `delete`. -/
theorem tidy_takeOnly_iff {reply : Reply α} (hmem : r.txId ∈ s.table.keys)
    (hkeys : ∀ txId ∈ s.table.keys, txId = r.txId) :
    (s.takeOnly r reply).Tidy ↔ ∃ out, reply.body = .ok out := by
  unfold takeOnly
  cases reply.body with
  | error reason => exact iff_of_false (not_tidy_finish hmem) (by simp)
  | ok out => exact iff_of_true (tidy_finish_del hkeys) ⟨out, rfl⟩

/-- What is heard leaves an entry exactly when it is of another transaction, or is no packet. -/
theorem tidy_heard_iff {heard : Listened α} (hr : s.running = some r) (hmem : r.txId ∈ s.table.keys)
    (hkeys : ∀ txId ∈ s.table.keys, txId = r.txId) :
    (match heard with
      | .packet p => { s with table := s.table.store p }
      | .raises reason => s.finish r.txId s.table (.error reason)).Tidy ↔
    ∃ p, heard = .packet p ∧ ∀ txId idx reply, p = .respondExecute txId idx reply →
      txId = r.txId := by
  cases heard with
  | raises reason => exact iff_of_false (not_tidy_finish hmem) (by simp)
  | packet p =>
    refine (tidy_of_running (s := { s with table := s.table.store p }) hr).trans ?_
    constructor
    · intro htidy
      refine ⟨p, rfl, fun txId idx reply hp => ?_⟩
      exact htidy txId (ResponseTable.mem_keys_store.mpr (.inl ⟨idx, reply, hp⟩))
    · rintro ⟨p', heq, hown⟩ txId hstored
      obtain rfl : p = p' := by simpa using heq
      rcases ResponseTable.mem_keys_store.mp hstored with ⟨idx, reply, hp⟩ | hold
      · exact hown txId idx reply hp
      · exact hkeys txId hold

theorem tidy_iterate_iff {heard : Listened α} (hr : s.running = some r) (h : s.Tidy) :
    (s.iterate r heard).Tidy ↔ s.Clean (.iterate heard) := by
  have hkeys : ∀ txId ∈ (s.table.touch r.txId).keys, txId = r.txId := fun txId hmem =>
    (ResponseTable.mem_keys_touch.mp hmem).elim ((tidy_of_running hr).mp h txId) id
  have hmem : r.txId ∈ (s.table.touch r.txId).keys := ResponseTable.mem_keys_touch.mpr (.inr rfl)
  have hclean : s.Clean (.iterate heard) ↔
      (∀ reply, (s.table.get r.txId).lookup r.idx = some reply → ∃ out, reply.body = .ok out) ∧
      ((s.table.get r.txId).lookup r.idx = none → ∃ p, heard = .packet p ∧
        ∀ txId idx reply, p = .respondExecute txId idx reply → txId = r.txId) := by
    unfold Clean
    rw [hr]
    simp only [Option.some_inj, forall_eq']
  rw [hclean]
  simp only [iterate, ResponseTable.get_touch]
  cases (s.table.get r.txId).lookup r.idx with
  | none =>
    refine (tidy_heard_iff (s := { s with table := s.table.touch r.txId }) hr hmem hkeys).trans ?_
    simp
  | some reply =>
    have htaken : (∀ reply', some reply = some reply' → ∃ out, reply'.body = .ok out) ∧
        (some reply = none → ∃ p, heard = .packet p ∧ ∀ txId idx reply,
          p = Incoming.respondExecute txId idx reply → txId = r.txId) ↔
        ∃ out, reply.body = .ok out := by simp
    rw [htaken]
    cases r.function with
    | call | callMethod =>
      exact tidy_takeNext_iff (s := { s with table := s.table.touch r.txId }) hkeys
    | define | delete =>
      exact tidy_takeOnly_iff (s := { s with table := s.table.touch r.txId }) hmem hkeys

theorem alive_finish {table : ResponseTable α} {txId : TxId}
    {result : Except String (CallValue α)} : (s.finish txId table result).Alive :=
  fun _ hr => nomatch hr

theorem Alive.takeNext (h : s.Alive) (hr : s.running = some r) (reply : Reply α) :
    (s.takeNext r reply).Alive := by
  unfold TableState.takeNext
  cases reply.body with
  | error reason => exact alive_finish
  | ok out =>
    by_cases hfinished : reply.finished = true
    · simp only [hfinished, if_true]
      exact alive_finish
    · simp only [hfinished]
      intro r' hr'
      obtain rfl := Option.some.inj hr'
      exact h r hr

theorem Alive.takeOnly (reply : Reply α) : (s.takeOnly r reply).Alive := by
  unfold TableState.takeOnly
  cases reply.body with
  | error reason => exact alive_finish
  | ok out => exact alive_finish

/-- The call in progress is the one that ends, so no other has ended. -/
theorem Alive.step (h : s.Alive) (hs : s.step a = some s') : s'.Alive := by
  cases a with
  | send txId function sent =>
    simp only [TableState.step] at hs
    split_ifs at hs with hidle hsent
    · obtain rfl := Option.some.inj hs
      intro r hr
      obtain rfl := Option.some.inj hr
      exact Option.isNone_iff_eq_none.mp hidle.2
    · obtain rfl := Option.some.inj hs
      exact alive_finish
  | iterate heard =>
    obtain ⟨r, hr, rfl⟩ := Option.map_eq_some_iff.mp hs
    have htouched : ({ s with table := s.table.touch r.txId } : TableState α).Alive := h
    simp only [iterate]
    split
    · cases heard with
      | packet p => exact h
      | raises reason => exact alive_finish
    · cases r.function with
      | call | callMethod => exact htouched.takeNext hr _
      | define | delete => exact Alive.takeOnly _

theorem tidy_step_iff (h : s.Tidy) (hs : s.step a = some s') : s'.Tidy ↔ s.Clean a := by
  cases a with
  | send txId function sent =>
    simp only [step] at hs
    split_ifs at hs with hidle hsent
    · obtain rfl := Option.some.inj hs
      have hempty := (tidy_of_idle (Option.isNone_iff_eq_none.mp hidle.1)).mp h
      exact iff_of_true (fun txId hmem => absurd hmem (hempty txId)) trivial
    · obtain rfl := Option.some.inj hs
      have hempty := (tidy_of_idle (Option.isNone_iff_eq_none.mp hidle.1)).mp h
      exact iff_of_true (fun txId hmem => absurd hmem (hempty txId)) trivial
  | iterate heard =>
    obtain ⟨r, hr, rfl⟩ := Option.map_eq_some_iff.mp hs
    exact tidy_iterate_iff hr h

end TableState

/-! ## Runs -/

/-- A run leaves no entry behind, at any of its states, exactly when all its steps are clean. -/
theorem noLeftovers_iff (acts : List (TableAct α)) :
    Meets TableState.step TableState.Clean .initial acts ↔
      Along TableState.step TableState.NoLeftovers .initial acts := by
  have hinitial : (.initial : TableState α).Alive := fun _ hr => nomatch hr
  have htidy : (.initial : TableState α).Tidy :=
    (TableState.tidy_of_idle rfl).mpr fun _ => List.not_mem_nil
  refine (meets_true acts).iff_along (fun s a s' (h : s.Alive) _ hs => h.step hs) ?_ ?_ ?_ hinitial
    ((TableState.noLeftovers_iff_tidy hinitial).mpr htidy)
  · intro s a s' h hP _ hclean hs
    have hs' := (TableState.tidy_step_iff ((TableState.noLeftovers_iff_tidy h).mp hP) hs).mpr hclean
    exact (TableState.noLeftovers_iff_tidy (h.step hs)).mpr hs'
  · intro s a s' h hP _ hs hP'
    have hs' := (TableState.noLeftovers_iff_tidy (h.step hs)).mp hP'
    exact (TableState.tidy_step_iff ((TableState.noLeftovers_iff_tidy h).mp hP) hs).mp hs'
  · intro s a hs
    cases a with
    | send txId function sent => trivial
    | iterate heard =>
      intro r hr
      rw [TableState.step, hr] at hs
      cases hs

/-- A call that raises the failure of its only reply has its entry still there. -/
theorem raising_call_leaves_entry : ∃ s : TableState ℕ,
    run TableState.step .initial [.send "t" .call true, .iterate (.packet .timeout),
      .iterate (.packet (.respondExecute "t" 0 ⟨true, .error "unknown function"⟩)),
      .iterate (.packet .timeout)] = some s ∧
      s.ended "t" = some (.error "unknown function") ∧ "t" ∈ s.table.keys :=
  ⟨_, rfl, rfl, by decide⟩

end Ailoy
