import Ailoy.Bindings.Replies
import Ailoy.Lib.SingleFlight
import Ailoy.Lib.Transition

/-!
# The listening of the asynchronous runtime

`AsyncRuntime` of `bindings/python/ailoy/runtime.py` with the `_listen` of its base. One task at a
time listens, in a thread of the pool, and the others wait for its event. The event is fired and
`_listen_lock` cleared only where `_listen` goes on behind `to_thread`. So a cancellation or an
exception at this place leaves the event in the lock: each other call then waits for it, and the
packet of the abandoned thread is dropped. `meets_careful_iff` says that nothing else does.

Between two places where it awaits something, a task runs alone.
-/

namespace Ailoy

open Transition

variable {α : Type*}

/-- Where a call is in its own code. -/
inductive AsyncStage
  /-- In the loop over `_listen`, or before it. -/
  | looping
  /-- Behind the `yield` of the last reply. -/
  | finishing
  /-- Returned, raised or cancelled. -/
  | ended
  deriving DecidableEq

/-- A call of `call`, `call_iter`, `call_method` or `call_iter_method`, which reads a stream, or of
`define` or `delete`, which does not. -/
structure AsyncTask (α : Type*) where
  iter : Bool
  idx : ℕ
  stage : AsyncStage
  /-- The replies that it has taken. -/
  log : List (Reply α)

/-- The runtime with its calls, each under its transaction. -/
structure AsyncRuntime (α : Type*) where
  buffers : Buffers α
  /-- `_listen_lock`, with the threads that run `client.listen` as jobs. -/
  flight : Flight TxId (Incoming α)
  tasks : TxId → Option (AsyncTask α)

/-- A step of the event loop or of a thread of the pool. -/
inductive AsyncAct (α : Type*)
  /-- A call sends its packet. -/
  | call (txId : TxId) (iter : Bool)
  /-- The event loop runs a task to its next `await`, or its consumer pulls. -/
  | run (txId : TxId)
  /-- A task is cancelled where it awaits something. -/
  | cancel (txId : TxId)
  /-- `client.listen` returns in the thread of an event. -/
  | listenReturns (e : ℕ) (packet : Incoming α)
  /-- It raises an exception. -/
  | listenRaises (e : ℕ)

namespace AsyncRuntime

/-- A runtime that has called nothing. -/
def initial : AsyncRuntime α := ⟨.empty, .free, fun _ => none⟩

/-- A call is at a new place of its code. -/
def setTask (s : AsyncRuntime α) (txId : TxId) (task : AsyncTask α) : AsyncRuntime α :=
  { s with tasks := Function.update s.tasks txId (some task) }

/-- A call behind the reply that it has waited for. -/
def nextTask (task : AsyncTask α) (reply : Reply α) : AsyncTask α where
  iter := task.iter
  idx := task.idx + 1
  stage :=
    match reply.body with
    | .error _ => .ended
    | .ok _ => if task.iter then if reply.finished then .finishing else .looping else .ended
  log := task.log ++ [reply]

/-- A stream pops its reply. `define` and `delete` remove all replies, if theirs is no failure. -/
def nextBuffers (b : Buffers α) (txId : TxId) (task : AsyncTask α) (reply : Reply α) : Buffers α :=
  if task.iter then b.pop txId task.idx
  else match reply.body with
    | .error _ => b
    | .ok _ => b.del txId

/-- A call takes the reply that it has waited for. -/
def take (s : AsyncRuntime α) (txId : TxId) (task : AsyncTask α) (reply : Reply α) :
    AsyncRuntime α :=
  { s with buffers := nextBuffers s.buffers txId task reply }.setTask txId (nextTask task reply)

/-- A call at the head of its loop, which calls `_listen` when its reply is not there. -/
def loopHead (s : AsyncRuntime α) (txId : TxId) (task : AsyncTask α) : AsyncRuntime α :=
  match s.buffers.execResponses txId task.idx with
  | some reply => s.take txId task reply
  | none => { s with flight := s.flight.enter txId }

/-- A call in its loop goes on. There is no next state while what it awaits is not there. -/
def resume (s : AsyncRuntime α) (txId : TxId) (task : AsyncTask α) : Option (AsyncRuntime α) :=
  match s.flight.station txId with
  | .elsewhere => some (s.loopHead txId task)
  | .waiting e =>
    if e ∈ s.flight.fired then
      some ({ s with flight := s.flight.move txId .elsewhere }.loopHead txId task)
    else none
  | .working e =>
    match s.flight.jobs e with
    | some (.returned packet) =>
      let s' := { s with buffers := s.buffers.store packet, flight := s.flight.finish txId e }
      -- The event that is fired is the one in the lock, and `None` has no `set`.
      if s.flight.lock = none then some (s'.setTask txId { task with stage := .ended })
      else some (s'.loopHead txId task)
    | some .raised =>
      some ({ s with flight := s.flight.abandon txId e }.setTask txId { task with stage := .ended })
    | some .running | none => none

/-- A step. A call has a transaction of its own. -/
def step (s : AsyncRuntime α) : AsyncAct α → Option (AsyncRuntime α)
  | .call txId iter =>
    match s.tasks txId with
    | some _ => none
    | none => some (s.setTask txId ⟨iter, 0, .looping, []⟩)
  | .run txId =>
    match s.tasks txId with
    | none => none
    | some task =>
      match task.stage with
      | .looping => s.resume txId task
      | .finishing =>
        some ({ s with buffers := s.buffers.del txId }.setTask txId { task with stage := .ended })
      | .ended => none
  | .cancel txId =>
    match s.tasks txId with
    | none => none
    | some task =>
      if task.stage = .ended then none
      else some ({ s with flight := s.flight.move txId .elsewhere }.setTask txId
        { task with stage := .ended })
  | .listenReturns e packet =>
    match s.flight.jobs e with
    | some .running => some { s with flight := s.flight.jobReturns e packet }
    | _ => none
  | .listenRaises e =>
    match s.flight.jobs e with
    | some .running => some { s with flight := s.flight.jobRaises e }
    | _ => none

/-- The condition on the steps: no call is cancelled while it awaits its own `client.listen`, and no
`client.listen` raises an exception. -/
def Careful (s : AsyncRuntime α) : AsyncAct α → Prop
  | .cancel txId => ∀ task, s.tasks txId = some task → task.stage ≠ .ended →
    ∀ e, s.flight.station txId ≠ .working e
  | .listenRaises e => s.flight.jobs e ≠ some .running
  | .call _ _ | .run _ | .listenReturns _ _ => True

/-- What the runtime owes to its calls. -/
structure Alive (s : AsyncRuntime α) : Prop where
  /-- `_listen_lock` is `None`, or a live call will fire and clear it, and no packet is lost. -/
  flight : s.flight.Sound
  /-- A call that waits for the event of another one while its reply is there takes a reply in the
  next steps. -/
  served : ∀ txId task e reply, s.tasks txId = some task → s.flight.station txId = .waiting e →
    s.buffers.execResponses txId task.idx = some reply →
    ∃ as s' task' reply', run step s as = some s' ∧ Meets step Careful s as ∧
      s'.tasks txId = some task' ∧ task'.log = task.log ++ [reply']

/-! ## One call at the head of its loop -/

/-- What a step leaves as it is for a call: its place, its replies, and the events that it may wait
for. -/
structure Spares (s s' : AsyncRuntime α) (txId : TxId) : Prop where
  tasks : s'.tasks txId = s.tasks txId
  replies : s'.buffers.execResponses txId = s.buffers.execResponses txId
  station : s'.flight.station txId = s.flight.station txId
  fired : s'.flight.fired = s.flight.fired

variable {s s' : AsyncRuntime α} {txId other : TxId} {task : AsyncTask α} {reply : Reply α} {e : ℕ}

/-- A call that takes its reply leaves those of the others. -/
theorem execResponses_nextBuffers {b : Buffers α} (h : other ≠ txId) :
    (nextBuffers b txId task reply).execResponses other = b.execResponses other := by
  funext idx
  unfold nextBuffers
  split_ifs
  · rw [Buffers.pop, Buffers.execResponses_set, if_neg fun heq => h heq.1]
  · split
    · rfl
    · rw [Buffers.execResponses_del, if_neg h]

/-- A call at the head of its loop spares the others. -/
theorem loopHead_spares (s : AsyncRuntime α) (task : AsyncTask α) (h : other ≠ txId) :
    Spares s (s.loopHead txId task) other := by
  unfold loopHead
  split
  · exact ⟨Function.update_of_ne h .., execResponses_nextBuffers h, rfl, rfl⟩
  · exact ⟨rfl, rfl, Flight.station_enter_of_ne h, Flight.fired_enter⟩

/-- What a call at the head of its loop does to the flight. -/
theorem loopHead_flight (s : AsyncRuntime α) (txId : TxId) (task : AsyncTask α) :
    (s.loopHead txId task).flight = s.flight ∨
      (s.loopHead txId task).flight = s.flight.enter txId ∧
        (s.loopHead txId task).tasks = s.tasks := by
  unfold loopHead
  split
  · exact .inl rfl
  · exact .inr ⟨rfl, rfl⟩

/-! ## The invariant -/

/-- One job at a time, and only calls that loop are at the lock. -/
structure Regular (s : AsyncRuntime α) : Prop where
  flying : s.flight.Flying
  looping : ∀ txId, s.flight.station txId ≠ .elsewhere →
    ∃ task, s.tasks txId = some task ∧ task.stage = .looping

theorem regular_initial : Regular (initial : AsyncRuntime α) :=
  ⟨Flight.flying_free, fun _ h => absurd rfl h⟩

/-- A step that leaves the other calls where they are, and takes its own from the lock. -/
theorem Regular.of_leave (h : Regular s) (txId : TxId) (hf : s'.flight.Flying)
    (htasks : ∀ other, other ≠ txId → s'.tasks other = s.tasks other)
    (hstation : s'.flight.station = Function.update s.flight.station txId .elsewhere) :
    Regular s' := by
  refine ⟨hf, fun other hother => ?_⟩
  rw [hstation] at hother
  by_cases heq : other = txId
  · rw [heq, Function.update_self] at hother
    exact absurd rfl hother
  · rw [Function.update_of_ne heq] at hother
    rw [htasks other heq]
    exact h.looping other hother

/-- A call that is not at the lock may go on. -/
theorem Regular.loopHead (h : Regular s) (hstation : s.flight.station txId = .elsewhere)
    (htask : s.tasks txId = some task) (hstage : task.stage = .looping) :
    Regular (s.loopHead txId task) := by
  rcases loopHead_flight s txId task with heq | ⟨heq, htasks⟩
  · refine h.of_leave txId ?_ (fun other hne => (loopHead_spares s task hne).tasks) ?_
    · rw [heq]
      exact h.flying
    · rw [heq, ← hstation, Function.update_eq_self]
  · refine ⟨by rw [heq]; exact h.flying.enter, fun other hother => ?_⟩
    rw [htasks]
    by_cases hne : other = txId
    · rw [hne]
      exact ⟨task, htask, hstage⟩
    · rw [(loopHead_spares s task hne).station] at hother
      exact h.looping other hother

/-- A call that is not looping is not at the lock. -/
theorem Regular.station_eq (h : Regular s) (htask : s.tasks txId = some task)
    (hstage : task.stage ≠ .looping) : s.flight.station txId = .elsewhere := by
  by_contra hne
  obtain ⟨task', htask', hlooping⟩ := h.looping txId hne
  obtain rfl := Option.some.inj (htask.symm.trans htask')
  exact hstage hlooping

/-! ## One step -/

/-- A call in its loop goes on from the head of the loop, in a state that is as sound as before, or it
has learnt that its `client.listen` has raised an exception. -/
theorem Regular.resume_cases (h : Regular s) (hs : s.resume txId task = some s') :
    (∃ s₁, s' = s₁.loopHead txId task ∧ Regular s₁ ∧ s₁.flight.station txId = .elsewhere ∧
      s₁.tasks = s.tasks ∧ (s.flight.Sound → s₁.flight.Sound)) ∨
    ∃ e, s.flight.jobs e = some .raised ∧ s' =
      { s with flight := s.flight.abandon txId e }.setTask txId { task with stage := .ended } := by
  unfold AsyncRuntime.resume at hs
  split at hs
  · rename_i hstation
    exact .inl ⟨s, (Option.some.inj hs).symm, h, hstation, rfl, id⟩
  · rename_i e hstation
    split_ifs at hs
    refine .inl ⟨_, (Option.some.inj hs).symm, ?_, Function.update_self .., rfl, fun hsound => ?_⟩
    · exact h.of_leave txId (h.flying.move nofun) (fun _ _ => rfl) rfl
    · refine hsound.move (fun e' he' => ?_) nofun
      rw [hstation] at he'
      cases he'
  · rename_i e hstation
    split at hs
    · have hlock : s.flight.lock ≠ none := by
        rw [h.flying.working txId e hstation]
        nofun
      simp only [if_neg hlock] at hs
      refine .inl ⟨_, (Option.some.inj hs).symm, ?_, Function.update_self .., rfl, fun hsound => ?_⟩
      · exact h.of_leave txId (h.flying.finish hstation) (fun _ _ => rfl) rfl
      · exact hsound.finish h.flying hstation
    · rename_i hj
      exact .inr ⟨e, hj, (Option.some.inj hs).symm⟩
    · cases hs
    · cases hs

/-- A step keeps the state regular. -/
theorem Regular.step (h : Regular s) {a : AsyncAct α} (hs : s.step a = some s') : Regular s' := by
  cases a with
  | call txId iter =>
    simp only [AsyncRuntime.step] at hs
    split at hs
    · cases hs
    · rename_i hnone
      obtain rfl := Option.some.inj hs
      refine h.of_leave txId h.flying (fun other hne => Function.update_of_ne hne ..) ?_
      -- A call that is not made is not at the lock.
      have hstation : s.flight.station txId = .elsewhere := by
        by_contra hne
        obtain ⟨task, htask, -⟩ := h.looping txId hne
        rw [hnone] at htask
        cases htask
      rw [← hstation, Function.update_eq_self]
      rfl
  | run txId =>
    simp only [AsyncRuntime.step] at hs
    split at hs
    · cases hs
    · rename_i task htask
      split at hs
      · rename_i hstage
        rcases h.resume_cases hs with ⟨s₁, rfl, h₁, hstation, htasks, -⟩ | ⟨e, -, rfl⟩
        · exact h₁.loopHead hstation (by rw [htasks]; exact htask) hstage
        · exact h.of_leave txId h.flying.abandon (fun other hne => Function.update_of_ne hne ..) rfl
      · rename_i hstage
        obtain rfl := Option.some.inj hs
        refine h.of_leave txId h.flying (fun other hne => Function.update_of_ne hne ..) ?_
        rw [← h.station_eq htask (by rw [hstage]; nofun), Function.update_eq_self]
        rfl
      · cases hs
  | cancel txId =>
    simp only [AsyncRuntime.step] at hs
    split at hs
    · cases hs
    · split_ifs at hs
      obtain rfl := Option.some.inj hs
      exact h.of_leave txId (h.flying.move nofun) (fun other hne => Function.update_of_ne hne ..) rfl
  | listenReturns e packet | listenRaises e =>
    simp only [AsyncRuntime.step] at hs
    split at hs
    · rename_i hj
      obtain rfl := Option.some.inj hs
      exact ⟨h.flying.setJob (by rw [hj]; nofun) rfl rfl rfl, h.looping⟩
    · cases hs

/-- A careful step keeps the flight sound. -/
theorem Regular.sound_step (h : Regular s) (hsound : s.flight.Sound) {a : AsyncAct α}
    (hok : Careful s a) (hs : s.step a = some s') : s'.flight.Sound := by
  cases a with
  | call txId iter =>
    simp only [AsyncRuntime.step] at hs
    split at hs
    · cases hs
    · obtain rfl := Option.some.inj hs
      exact hsound
  | run txId =>
    simp only [AsyncRuntime.step] at hs
    split at hs
    · cases hs
    · rename_i task htask
      split at hs
      · rcases h.resume_cases hs with ⟨s₁, rfl, h₁, hstation, -, hsound₁⟩ | ⟨e, hj, -⟩
        · rcases loopHead_flight s₁ txId task with heq | ⟨heq, -⟩
          · rw [heq]
            exact hsound₁ hsound
          · rw [heq]
            refine (hsound₁ hsound).enter h₁.flying fun e he => ?_
            rw [hstation] at he
            cases he
        · exact absurd hj (hsound.jobs_ne_raised h.flying)
      · obtain rfl := Option.some.inj hs
        exact hsound
      · cases hs
  | cancel txId =>
    simp only [AsyncRuntime.step] at hs
    split at hs
    · cases hs
    · rename_i task htask
      split_ifs at hs with hstage
      obtain rfl := Option.some.inj hs
      exact hsound.move (hok task htask hstage) nofun
  | listenReturns e packet =>
    simp only [AsyncRuntime.step] at hs
    split at hs
    · rename_i hj
      obtain rfl := Option.some.inj hs
      exact hsound.jobReturns h.flying (by rw [hj]; nofun)
    · cases hs
  | listenRaises e =>
    simp only [AsyncRuntime.step] at hs
    split at hs
    · rename_i hj
      exact absurd hj hok
    · cases hs

/-- Only careful steps end in a sound flight. -/
theorem Regular.careful_of_sound (h : Regular s) {a : AsyncAct α} (hs : s.step a = some s')
    (hsound : s'.flight.Sound) : Careful s a := by
  cases a with
  | call txId iter => trivial
  | run txId => trivial
  | listenReturns e packet => trivial
  | cancel txId =>
    intro task htask hstage e hstation
    simp only [AsyncRuntime.step, htask, if_neg hstage] at hs
    obtain rfl := Option.some.inj hs
    exact Flight.Sound.not_give_up (p := .elsewhere) h.flying hstation nofun hsound
  | listenRaises e =>
    intro hj
    simp only [AsyncRuntime.step, hj] at hs
    obtain rfl := Option.some.inj hs
    exact Flight.Sound.not_jobRaises h.flying (by rw [hj]; nofun) hsound

/-! ## Calls that wait -/

/-- A call whose event is fired and whose reply is there takes it. -/
theorem woken (htask : s.tasks txId = some task) (hstage : task.stage = .looping)
    (hstation : s.flight.station txId = .waiting e) (hfired : e ∈ s.flight.fired)
    (hreply : s.buffers.execResponses txId task.idx = some reply) :
    ∃ s' task', s.step (.run txId) = some s' ∧ s'.tasks txId = some task' ∧
      task'.log = task.log ++ [reply] := by
  have hstep : s.step (.run txId) =
      some ({ s with flight := s.flight.move txId .elsewhere }.take txId task reply) := by
    simp only [AsyncRuntime.step, htask, hstage, resume, hstation, if_pos hfired, loopHead, hreply]
  exact ⟨_, nextTask task reply, hstep, Function.update_self .., rfl⟩

/-- A call whose `client.listen` has returned fires the event, and loses no reply of another call. -/
theorem Regular.fires (h : Regular s) (htask : s.tasks txId = some task)
    (hstage : task.stage = .looping) (hstation : s.flight.station txId = .working e)
    {packet : Incoming α} (hj : s.flight.jobs e = some (.returned packet)) :
    ∃ s', s.step (.run txId) = some s' ∧ e ∈ s'.flight.fired ∧ ∀ other, other ≠ txId →
      s'.tasks other = s.tasks other ∧
      s'.flight.station other = s.flight.station other ∧
      ∀ idx, s.buffers.execResponses other idx ≠ none →
        s'.buffers.execResponses other idx ≠ none := by
  have hlock := h.flying.working txId e hstation
  -- The state in which the call is at the head of its loop again.
  let s₁ : AsyncRuntime α :=
    { s with buffers := s.buffers.store packet, flight := s.flight.finish txId e }
  have hstep : s.step (.run txId) = some (s₁.loopHead txId task) := by
    have hne : s.flight.lock ≠ none := by
      rw [hlock]
      exact Option.some_ne_none e
    simp only [AsyncRuntime.step, htask, hstage, resume, hstation, hj, if_neg hne]
    rfl
  have hfired₁ : e ∈ s₁.flight.fired := by
    show e ∈ (s.flight.finish txId e).fired
    simp only [Flight.finish, hlock]
    exact Finset.mem_insert_self ..
  refine ⟨_, hstep, ?_, fun other hne => ?_⟩
  · rcases loopHead_flight s₁ txId task with heq | ⟨heq, -⟩
    · rw [heq]
      exact hfired₁
    · rw [heq, Flight.fired_enter]
      exact hfired₁
  · have hspares := loopHead_spares s₁ task hne
    refine ⟨hspares.tasks, hspares.station.trans (Flight.station_finish_of_ne hne),
      fun idx hidx => ?_⟩
    rw [hspares.replies]
    show (s.buffers.store packet).execResponses other idx ≠ none
    rw [Buffers.execResponses_store]
    cases packet.replyAt other idx with
    | none => exact hidx
    | some reply => exact Option.some_ne_none reply

/-- In a sound state, a call that waits while its reply is there takes a reply in the next steps. -/
theorem Regular.served (h : Regular s) (hsound : s.flight.Sound)
    (htask : s.tasks txId = some task) (hstation : s.flight.station txId = .waiting e)
    (hreply : s.buffers.execResponses txId task.idx ≠ none) :
    ∃ as s' task' reply', run AsyncRuntime.step s as = some s' ∧
      Meets AsyncRuntime.step Careful s as ∧ s'.tasks txId = some task' ∧
      task'.log = task.log ++ [reply'] := by
  obtain ⟨task₀, htask₀, hstage⟩ := h.looping txId (by rw [hstation]; nofun)
  obtain rfl := Option.some.inj (htask₀.symm.trans htask)
  rcases hsound.waiting txId e hstation with hfired | hlock
  · obtain ⟨reply, hr⟩ := Option.ne_none_iff_exists'.mp hreply
    obtain ⟨s', task', hs, ht, hlog⟩ := woken htask hstage hstation hfired hr
    exact ⟨[.run txId], s', task', reply, by rw [run_cons, hs]; rfl, ⟨trivial, fun _ _ => trivial⟩,
      ht, hlog⟩
  · -- Another call is at the job of the event. Its `client.listen` returns, if it has not yet.
    obtain ⟨u, j, hu, hj, hraised⟩ := hsound.lock e hlock
    have hreturned : ∃ as₀ s₀ packet, run AsyncRuntime.step s as₀ = some s₀ ∧
        (∀ a ∈ as₀, ∀ s, Careful s a) ∧ Regular s₀ ∧
        s₀.flight.jobs e = some (.returned packet) ∧ s₀.tasks = s.tasks ∧
        s₀.buffers = s.buffers ∧ s₀.flight.station = s.flight.station := by
      cases j with
      | raised => exact absurd rfl hraised
      | returned packet => exact ⟨[], s, packet, rfl, nofun, h, hj, rfl, rfl, rfl⟩
      | running =>
        have hstep : s.step (.listenReturns e .timeout) =
            some { s with flight := s.flight.jobReturns e .timeout } := by
          simp only [AsyncRuntime.step, hj]
        refine ⟨[.listenReturns e .timeout], _, .timeout, by rw [run_cons, hstep]; rfl, ?_,
          h.step hstep, Function.update_self .., rfl, rfl, rfl⟩
        intro a ha s
        rw [List.mem_singleton.mp ha]
        trivial
    obtain ⟨as₀, s₀, packet, hrun₀, hcareful₀, h₀, hj₀, htasks₀, hbuffers₀, hstation₀⟩ := hreturned
    have hne : txId ≠ u := by
      rintro rfl
      rw [hstation] at hu
      cases hu
    -- The other call goes on and fires the event, which wakes this one.
    obtain ⟨taskU, htaskU, hstageU⟩ := h.looping u (by rw [hu]; nofun)
    obtain ⟨s₁, hs₁, hfired₁, hframe⟩ := h₀.fires (by rw [htasks₀]; exact htaskU) hstageU
      (by rw [hstation₀]; exact hu) hj₀
    obtain ⟨htask₁, hstation₁, hreply₁⟩ := hframe txId hne
    rw [htasks₀] at htask₁
    rw [hstation₀] at hstation₁
    rw [hbuffers₀] at hreply₁
    obtain ⟨reply', hr⟩ := Option.ne_none_iff_exists'.mp (hreply₁ _ hreply)
    obtain ⟨s', task', hs, ht, hlog⟩ := woken (htask₁.trans htask) hstage
      (hstation₁.trans hstation) hfired₁ hr
    refine ⟨as₀ ++ [.run u, .run txId], s', task', reply', ?_, meets_of_forall ?_, ht, hlog⟩
    · rw [run_append, hrun₀]
      show run AsyncRuntime.step s₀ [.run u, .run txId] = some s'
      rw [run_cons, hs₁]
      show run AsyncRuntime.step s₁ [.run txId] = some s'
      rw [run_cons, hs]
      rfl
    · intro a ha s
      rcases List.mem_append.mp ha with ha | ha
      · exact hcareful₀ a ha s
      · obtain rfl | rfl : a = .run u ∨ a = .run txId := by simpa using ha
        · trivial
        · trivial

/-! ## Runs -/

/-- In every run, the lock is `None` or in the hands of a live call, every packet is kept, and every
call whose reply has arrived gets it, exactly when no call is cancelled while it awaits its own
`client.listen` and no `client.listen` raises an exception. -/
theorem meets_careful_iff (as : List (AsyncAct α)) :
    Meets step Careful initial as ↔ Along step Alive (initial : AsyncRuntime α) as := by
  have halive : ∀ s : AsyncRuntime α, Regular s → s.flight.Sound → Alive s := fun s h hsound =>
    ⟨hsound, fun txId task e reply htask hstation hreply =>
      h.served hsound htask hstation (by rw [hreply]; nofun)⟩
  have hinv : ∀ (s : AsyncRuntime α) a s', Regular s → s.step a = some s' → Regular s' :=
    fun _ _ _ h hs => h.step hs
  have hkeep : ∀ (s : AsyncRuntime α) a s', Regular s → Alive s → Careful s a →
      s.step a = some s' → Alive s' := fun s a s' h hP hok hs =>
    halive s' (h.step hs) (h.sound_step hP.flight hok hs)
  have hback : ∀ (s : AsyncRuntime α) a s', Regular s → s.step a = some s' → Alive s' →
      Careful s a := fun _ _ _ h hs hP => h.careful_of_sound hs hP.flight
  -- What cannot be done is careful.
  have hstuck : ∀ (s : AsyncRuntime α) a, s.step a = none → Careful s a := by
    intro s a hs
    cases a with
    | call txId iter => trivial
    | run txId => trivial
    | listenReturns e packet => trivial
    | cancel txId =>
      intro task htask hstage
      simp [step, htask, hstage] at hs
    | listenRaises e =>
      intro hj
      simp [step, hj] at hs
  exact meets_iff_along hinv hkeep hback hstuck regular_initial
    (halive _ regular_initial Flight.sound_free)

/-- Two calls, of which the second waits for the first. -/
def waitingRun : List (AsyncAct ℕ) := [.call "a" true, .call "b" true, .run "a", .run "b"]

/-- Then the first call is cancelled. -/
def cancelledRun : List (AsyncAct ℕ) := waitingRun ++ [.cancel "a"]

/-- Then its `client.listen` returns a reply for the second. -/
def droppedRun : List (AsyncAct ℕ) :=
  cancelledRun ++ [.listenReturns 0 (.respondExecute "b" 0 ⟨true, .ok 1⟩)]

/-- The event of the cancelled call stays in the lock, the reply is dropped, and the second call waits
for an event that nobody fires. -/
theorem droppedRun_not_alive : ¬ Along step Alive initial droppedRun ∧
    (run step initial droppedRun).map (fun s => (s.flight.lock, s.flight.station "b",
      decide (0 ∈ s.flight.fired), decide (0 ∈ s.flight.returned), decide (0 ∈ s.flight.kept))) =
        some (some 0, .waiting 0, false, true, false) := by
  refine ⟨fun halive => ?_, by decide⟩
  have hwaiting : (run step initial waitingRun).map (fun s => s.flight.station "a") =
      some (.working 0) := by decide
  obtain ⟨s, hs, hstation⟩ := Option.map_eq_some_iff.mp hwaiting
  have hregular : Regular s := (reach_of_run hs).invariant regular_initial
    fun _ _ _ _ h _ hstep => h.step hstep
  have hcancelled : (run step initial cancelledRun).isSome := by decide
  obtain ⟨s', hs'⟩ := Option.isSome_iff_exists.mp hcancelled
  have hsound : s'.flight.Sound := (halive.of_run hs').flight
  rw [cancelledRun, run_append, hs] at hs'
  change run step s [.cancel "a"] = some s' at hs'
  rw [run_cons] at hs'
  obtain ⟨s₁, hstep, hnil⟩ := Option.bind_eq_some_iff.mp hs'
  obtain rfl : s₁ = s' := Option.some.inj hnil
  -- The cancelled call was at its job, so its event is left in the lock.
  simp only [step] at hstep
  split at hstep
  · cases hstep
  · split_ifs at hstep
    obtain rfl := Option.some.inj hstep
    exact Flight.Sound.not_give_up (p := .elsewhere) hregular.flying hstation nofun hsound

end AsyncRuntime

end Ailoy
