import Ailoy.Bindings.AsyncRuntime
import Ailoy.Bindings.JsRuntime

/-!
# The streams of the asynchronous runtime

What the calls of `AsyncRuntime` take, whichever call listens and whatever is cancelled. A reply that
has come is held, in the buffers or by the thread that has got it, until its call has taken it
(`Streams`), and it is held under its own transaction and sequence number. So each call takes the
replies of its own transaction from the first one on, in order. When every step is careful, a call
whose replies have all come goes on to its end without another packet (`Streams.served`).
-/

namespace Ailoy

open Transition

variable {α : Type*}

/-- What a thread gets from `client.listen` in a step. -/
def AsyncAct.heard : AsyncAct α → Option (Incoming α)
  | .listenReturns _ packet => some packet
  | .call _ _ | .run _ | .cancel _ | .listenRaises _ => none

/-- The event loop runs a task, or `client.listen` returns without a packet. -/
def AsyncAct.Quiet : AsyncAct α → Prop
  | .run _ | .listenReturns _ .timeout => True
  | .call _ _ | .cancel _ | .listenRaises _ | .listenReturns _ (.respond _ _)
  | .listenReturns _ (.respondExecute _ _ _) => False

/-- A call has taken the replies of its transaction up to its place. -/
structure AsyncTask.Reads (replies : List (Reply α)) (task : AsyncTask α) : Prop where
  le : task.idx ≤ replies.length
  log : task.log = replies.take task.idx
  /-- Only a stream loops behind a reply, and only behind one that is not the last. -/
  looping : task.stage = .looping → ∀ reply ∈ task.log, task.iter = true ∧ reply.finished = false
  finishing : task.stage = .finishing → ∃ reply ∈ task.log, reply.finished = true

namespace AsyncRuntime

/-- What the threads of a run have got from `client.listen`, in order. -/
def delivered (as : List (AsyncAct α)) : List (Incoming α) := as.filterMap AsyncAct.heard

/-- A reply has come and is in the buffers, or with the thread that has got it. -/
def Held (s : AsyncRuntime α) (txId : TxId) (idx : ℕ) (reply : Reply α) : Prop :=
  s.buffers.execResponses txId idx = some reply ∨
    ∃ e, s.flight.jobs e = some (.returned (.respondExecute txId idx reply))

/-- A call may still take the reply with this number. -/
def Open (s : AsyncRuntime α) (txId : TxId) (idx : ℕ) : Prop :=
  ∀ task, s.tasks txId = some task → task.stage = .looping ∧ task.idx ≤ idx

/-- The calls read their own replies, and none of those that have come is lost. -/
structure Streams (replies : TxId → List (Reply α)) (heard : List (Incoming α))
    (s : AsyncRuntime α) : Prop where
  genuine : ∀ txId idx reply, s.Held txId idx reply → (replies txId)[idx]? = some reply
  kept : ∀ txId idx reply, .respondExecute txId idx reply ∈ heard → s.Open txId idx →
    s.Held txId idx reply
  reads : ∀ txId task, s.tasks txId = some task → task.Reads (replies txId)

variable {replies : TxId → List (Reply α)} {heard : List (Incoming α)} {s s' : AsyncRuntime α}
  {txId : TxId} {idx e : ℕ} {task : AsyncTask α} {reply : Reply α} {a : AsyncAct α}

/-! ## One call -/

/-- A call that takes the reply at its place goes on reading. -/
theorem reads_nextTask {replies : List (Reply α)} (h : task.Reads replies)
    (hstage : task.stage = .looping) (hr : replies[task.idx]? = some reply) :
    (nextTask task reply).Reads replies := by
  obtain ⟨hlt, hget⟩ := List.getElem?_eq_some_iff.mp hr
  obtain ⟨finished, body⟩ := reply
  constructor
  · exact hlt
  · show task.log ++ _ = replies.take (task.idx + 1)
    rw [List.take_add_one, hr, h.log]
    rfl
  · -- It loops again only when the reply was a value that is not the last one.
    intro hloop reply' hmem
    have hstream : task.iter = true ∧ finished = false := by
      cases body with
      | error reason => cases hloop
      | ok out =>
        change (if task.iter then if finished then AsyncStage.finishing else .looping else .ended) =
          .looping at hloop
        split_ifs at hloop with hiter hfin
        exact ⟨hiter, by simpa using hfin⟩
    rcases List.mem_append.mp hmem with hmem | hmem
    · exact h.looping hstage reply' hmem
    · rw [List.mem_singleton.mp hmem]
      exact hstream
  · intro hfinish
    refine ⟨⟨finished, body⟩, List.mem_append_right _ (List.mem_singleton_self _), ?_⟩
    cases body with
    | error reason => cases hfinish
    | ok out =>
      change (if task.iter then if finished then AsyncStage.finishing else .looping else .ended) =
        .finishing at hfinish
      split_ifs at hfinish with hiter hfin
      exact hfin

/-- A call that loops has not come to the end of complete replies. -/
theorem lt_length_of_looping {replies : List (Reply α)} (hc : CompleteReplies replies)
    (h : task.Reads replies) (hstage : task.stage = .looping) : task.idx < replies.length := by
  by_contra hge
  have hpos := hc.length_pos
  have hlast : replies[replies.length - 1]? = some replies[replies.length - 1] :=
    List.getElem?_eq_getElem (by omega)
  have hmem : replies[replies.length - 1] ∈ task.log := by
    rw [h.log, List.take_of_length_le (by omega)]
    exact List.getElem_mem _
  have hfin := (hc.finished_iff hlast).mpr (by omega)
  rw [(h.looping hstage _ hmem).2] at hfin
  cases hfin

/-- A call that is behind its last reply has taken complete replies whole. -/
theorem log_eq_of_finishing {replies : List (Reply α)} (hc : CompleteReplies replies)
    (h : task.Reads replies) (hstage : task.stage = .finishing) : task.log = replies := by
  obtain ⟨reply, hmem, hfin⟩ := h.finishing hstage
  rw [h.log] at hmem ⊢
  obtain ⟨i, hi, hget⟩ := List.getElem_of_mem hmem
  rw [List.getElem_take] at hget
  have hi' : i < task.idx := by
    rw [List.length_take] at hi
    omega
  have hr : replies[i]? = some reply := by
    rw [← hget]
    exact List.getElem?_eq_getElem _
  have hlast := (hc.finished_iff hr).mp hfin
  exact List.take_of_length_le (by omega)

/-! ## One step -/

/-- A step that holds what it held for calls that are open, and changes no reply. -/
theorem Streams.of_held (h : Streams replies heard s)
    (hold : ∀ txId idx reply, s'.Held txId idx reply → s.Held txId idx reply)
    (hkeep : ∀ txId idx reply, s'.Open txId idx → s.Held txId idx reply → s'.Held txId idx reply)
    (hopen : ∀ txId idx, s'.Open txId idx → s.Open txId idx)
    (hreads : ∀ txId task, s'.tasks txId = some task → task.Reads (replies txId)) :
    Streams replies heard s' :=
  ⟨fun txId idx reply hheld => h.genuine txId idx reply (hold txId idx reply hheld),
    fun txId idx reply hmem ho =>
      hkeep txId idx reply ho (h.kept txId idx reply hmem (hopen txId idx ho)), hreads⟩

/-- What is held depends on the buffers and the jobs only. -/
theorem held_iff_of_eq (hb : s'.buffers = s.buffers) (hj : s'.flight.jobs = s.flight.jobs) :
    s'.Held txId idx reply ↔ s.Held txId idx reply := by
  unfold Held
  rw [hb, hj]

/-- A step that moves nothing but a call which reads its own replies. -/
theorem Streams.of_setTask (h : Streams replies heard s) {task' : AsyncTask α}
    (hheld : ∀ other idx reply, s'.Held other idx reply ↔ s.Held other idx reply)
    (htasks : s'.tasks = Function.update s.tasks txId (some task'))
    (hreads : task'.Reads (replies txId)) (hopen : task'.stage = .looping → s.tasks txId = none) :
    Streams replies heard s' := by
  refine h.of_held (fun t i r => (hheld t i r).mp) (fun t i r _ => (hheld t i r).mpr) ?_ ?_
  · intro t i ho task ht
    by_cases htx : t = txId
    · subst htx
      -- A call that is still open was not there before.
      have hloop := (ho task' (by rw [htasks, Function.update_self])).1
      rw [hopen hloop] at ht
      cases ht
    · exact ho task (by rw [htasks, Function.update_of_ne htx]; exact ht)
  · intro t task ht
    by_cases htx : t = txId
    · subst htx
      rw [htasks, Function.update_self] at ht
      rw [← Option.some.inj ht]
      exact hreads
    · rw [htasks, Function.update_of_ne htx] at ht
      exact h.reads t task ht

/-- A call that ends where it is has read its own replies. -/
theorem reads_ended {replies : List (Reply α)} (h : task.Reads replies) :
    AsyncTask.Reads replies { task with stage := .ended } := by
  refine ⟨h.le, h.log, ?_, ?_⟩
  · rintro ⟨⟩
  · rintro ⟨⟩

/-- A call that takes the reply at its place takes nothing from the others. -/
theorem Streams.take (h : Streams replies heard s) (htask : s.tasks txId = some task)
    (hstage : task.stage = .looping) (hr : s.buffers.execResponses txId task.idx = some reply) :
    Streams replies heard (s.take txId task reply) := by
  have hgenuine : (replies txId)[task.idx]? = some reply := h.genuine _ _ _ (.inl hr)
  have hreads := reads_nextTask (h.reads txId task htask) hstage hgenuine
  -- What is there of a stream behind its place stays there, and other calls lose nothing.
  have hset : ∀ t i, (nextBuffers s.buffers txId task reply).execResponses t i = none ∨
      (nextBuffers s.buffers txId task reply).execResponses t i = s.buffers.execResponses t i := by
    intro t i
    unfold nextBuffers
    split_ifs
    · rw [Buffers.pop, Buffers.execResponses_set]
      split_ifs
      · exact .inl rfl
      · exact .inr rfl
    · split
      · exact .inr rfl
      · rw [Buffers.execResponses_del]
        split_ifs
        · exact .inl rfl
        · exact .inr rfl
  refine h.of_held (fun t i r hheld => ?_) (fun t i r ho hheld => ?_) (fun t i ho task' ht => ?_)
    fun t task' ht => ?_
  · rcases hheld with hthere | hjob
    · rcases hset t i with hnone | hsame
      · change (nextBuffers s.buffers txId task reply).execResponses t i = some r at hthere
        rw [hnone] at hthere
        cases hthere
      · exact .inl (hsame.symm.trans hthere)
    · exact .inr hjob
  · refine hheld.imp_left fun hthere => ?_
    show (nextBuffers s.buffers txId task reply).execResponses t i = some r
    by_cases ht : t = txId
    · subst ht
      obtain ⟨hloop, hle⟩ := ho _ (Function.update_self ..)
      have hiter : task.iter = true := (hreads.looping hloop reply
        (List.mem_append_right _ (List.mem_singleton_self _))).1
      have hlt : task.idx + 1 ≤ i := hle
      rw [nextBuffers, if_pos hiter, Buffers.pop, Buffers.execResponses_set, if_neg (by omega)]
      exact hthere
    · rw [execResponses_nextBuffers ht]
      exact hthere
  · by_cases htx : t = txId
    · subst htx
      obtain rfl := Option.some.inj (htask.symm.trans ht)
      obtain ⟨hloop, hle⟩ := ho _ (Function.update_self ..)
      have hlt : task.idx + 1 ≤ i := hle
      exact ⟨hstage, by omega⟩
    · exact ho task' ((Function.update_of_ne htx ..).trans ht)
  · change Function.update s.tasks txId (some (nextTask task reply)) t = some task' at ht
    by_cases htx : t = txId
    · subst htx
      rw [Function.update_self] at ht
      rw [← Option.some.inj ht]
      exact hreads
    · rw [Function.update_of_ne htx] at ht
      exact h.reads t task' ht

/-- A call that comes to the lock drops no packet: there is no job when the lock is free. -/
theorem jobs_enter_returned {f : Flight TxId (Incoming α)} (hf : f.Flying) {p : Incoming α} :
    (f.enter txId).jobs e = some (.returned p) ↔ f.jobs e = some (.returned p) := by
  unfold Flight.enter
  split
  · rename_i hlock
    have hnone := hf.jobs_eq_none (e := e) hlock
    by_cases he : e = f.next
    · subst he
      simp [Flight.start, hnone]
    · simp [Flight.start, he]
  · split_ifs
    · rfl
    · rfl

/-- A call at the head of its loop. -/
theorem Streams.loopHead (h : Streams replies heard s) (hf : s.flight.Flying)
    (htask : s.tasks txId = some task) (hstage : task.stage = .looping) :
    Streams replies heard (s.loopHead txId task) := by
  unfold AsyncRuntime.loopHead
  split
  · rename_i reply hr
    exact h.take htask hstage hr
  · have hheld : ∀ t i r, Held { s with flight := s.flight.enter txId } t i r ↔ s.Held t i r := by
      intro t i r
      exact or_congr_right (exists_congr fun e => jobs_enter_returned hf)
    exact h.of_held (fun t i r => (hheld t i r).mp) (fun t i r _ => (hheld t i r).mpr)
      (fun _ _ ho => ho) h.reads

/-- A call that stores the packet of its job keeps what is held. -/
theorem Streams.held_store (h : Streams replies heard s) (hf : s.flight.Flying)
    (hstation : s.flight.station txId = .working e) {packet : Incoming α}
    (hj : s.flight.jobs e = some (.returned packet)) :
    Held { s with buffers := s.buffers.store packet, flight := s.flight.finish txId e }
      = s.Held := by
  have hlock := hf.working txId e hstation
  have hjobs : ∀ e' p, (s.flight.finish txId e).jobs e' ≠ some (.returned p) := by
    intro e' p hj'
    change Function.update s.flight.jobs e none e' = _ at hj'
    by_cases he : e' = e
    · rw [he, Function.update_self] at hj'
      cases hj'
    · rw [Function.update_of_ne he] at hj'
      have hlock' := hf.jobs e' (by rw [hj']; exact Option.some_ne_none _)
      exact he (Option.some.inj (hlock'.symm.trans hlock))
  funext t i r
  refine propext ⟨fun hheld => ?_, fun hheld => ?_⟩
  · rcases hheld with hthere | ⟨e', hj'⟩
    · change (s.buffers.store packet).execResponses t i = some r at hthere
      rw [Buffers.execResponses_store, Option.or_eq_some_iff] at hthere
      rcases hthere with hp | ⟨-, hthere⟩
      · rw [Incoming.replyAt_eq_some] at hp
        subst hp
        exact .inr ⟨e, hj⟩
      · exact .inl hthere
    · exact absurd hj' (hjobs e' _)
  · refine .inl ?_
    show (s.buffers.store packet).execResponses t i = some r
    rw [Buffers.execResponses_store]
    cases hp : packet.replyAt t i with
    | some r' =>
      -- Both are the reply at this place.
      rw [Incoming.replyAt_eq_some] at hp
      subst hp
      have hsame := (h.genuine t i r hheld).symm.trans (h.genuine t i r' (.inr ⟨e, hj⟩))
      rw [Option.some_or, Option.some.inj hsame]
    | none =>
      rcases hheld with hthere | ⟨e', hj'⟩
      · exact hthere
      · -- The only job is the one whose packet is stored.
        have hlock' := hf.jobs e' (by rw [hj']; exact Option.some_ne_none _)
        obtain rfl : e' = e := Option.some.inj (hlock'.symm.trans hlock)
        obtain rfl := Job.returned.inj (Option.some.inj (hj.symm.trans hj'))
        rw [Incoming.replyAt_eq_some.mpr rfl] at hp
        cases hp

/-- A call in its loop goes on. -/
theorem Streams.resume (h : Streams replies heard s) (hr : Regular s)
    (htask : s.tasks txId = some task) (hstage : task.stage = .looping)
    (hs : s.resume txId task = some s') : Streams replies heard s' := by
  unfold AsyncRuntime.resume at hs
  cases hstation : s.flight.station txId with
  | elsewhere =>
    simp only [hstation] at hs
    rw [← Option.some.inj hs]
    exact h.loopHead hr.flying htask hstage
  | waiting e =>
    simp only [hstation] at hs
    split_ifs at hs
    rw [← Option.some.inj hs]
    have hmoved : Streams replies heard
        { s with flight := s.flight.move txId .elsewhere } := ⟨h.genuine, h.kept, h.reads⟩
    have hflying : (s.flight.move txId .elsewhere).Flying := hr.flying.move (by rintro e ⟨⟩)
    exact hmoved.loopHead hflying htask hstage
  | working e =>
    have hlock : s.flight.lock ≠ none := by
      rw [hr.flying.working txId e hstation]
      exact Option.some_ne_none e
    simp only [hstation, if_neg hlock] at hs
    cases hj : s.flight.jobs e with
    | none => simp only [hj] at hs; cases hs
    | some j =>
      cases j with
      | running => simp only [hj] at hs; cases hs
      | raised =>
        simp only [hj] at hs
        rw [← Option.some.inj hs]
        -- The job that has failed has no packet.
        have hjobs : ∀ e' p, (s.flight.abandon txId e).jobs e' = some (.returned p) ↔
            s.flight.jobs e' = some (.returned p) := by
          intro e' p
          by_cases he : e' = e
          · subst he
            simp [Flight.abandon, hj]
          · simp [Flight.abandon, Flight.move, he]
        exact h.of_setTask (fun t i r => or_congr_right (exists_congr fun e' => hjobs e' _)) rfl
          (reads_ended (h.reads txId task htask)) (by rintro ⟨⟩)
      | returned packet =>
        simp only [hj] at hs
        rw [← Option.some.inj hs]
        have hheld := h.held_store hr.flying hstation hj
        have hstored : Streams replies heard
            { s with buffers := s.buffers.store packet, flight := s.flight.finish txId e } :=
          h.of_held (fun t i r hr => by rwa [hheld] at hr) (fun t i r _ hr => by rwa [hheld])
            (fun _ _ ho => ho) h.reads
        exact hstored.loopHead (hr.flying.finish hstation) htask hstage

/-- A stream that ends behind its last reply removes what is left of it. -/
theorem Streams.finish (h : Streams replies heard s) (htask : s.tasks txId = some task) :
    Streams replies heard ({ s with buffers := s.buffers.del txId }.setTask txId
      { task with stage := .ended }) := by
  have hclosed : ∀ {t i}, Open ({ s with buffers := s.buffers.del txId }.setTask txId
      { task with stage := .ended }) t i → t ≠ txId := by
    rintro t i ho rfl
    cases (ho _ (Function.update_self ..)).1
  refine h.of_held (fun t i r hheld => ?_) (fun t i r ho hheld => ?_) (fun t i ho task' ht => ?_)
    fun t task' ht => ?_
  · refine hheld.imp_left fun hthere => ?_
    change (s.buffers.del txId).execResponses t i = some r at hthere
    rw [Buffers.execResponses_del] at hthere
    split_ifs at hthere
    exact hthere
  · refine hheld.imp_left fun hthere => ?_
    show (s.buffers.del txId).execResponses t i = some r
    rw [Buffers.execResponses_del, if_neg (hclosed ho)]
    exact hthere
  · exact ho task' ((Function.update_of_ne (hclosed ho) ..).trans ht)
  · change Function.update s.tasks txId _ t = some task' at ht
    by_cases htx : t = txId
    · subst htx
      rw [Function.update_self] at ht
      rw [← Option.some.inj ht]
      exact reads_ended (h.reads t task htask)
    · rw [Function.update_of_ne htx] at ht
      exact h.reads t task' ht

/-- `client.listen` ends in a thread that runs it. -/
theorem of_listenReturns {packet : Incoming α}
    (hs : AsyncRuntime.step s (.listenReturns e packet) = some s') :
    s.flight.jobs e = some .running ∧ { s with flight := s.flight.jobReturns e packet } = s' := by
  cases hj : s.flight.jobs e with
  | none => simp only [AsyncRuntime.step, hj] at hs; cases hs
  | some j =>
    cases j with
    | running =>
      simp only [AsyncRuntime.step, hj] at hs
      exact ⟨rfl, Option.some.inj hs⟩
    | returned packet' => simp only [AsyncRuntime.step, hj] at hs; cases hs
    | raised => simp only [AsyncRuntime.step, hj] at hs; cases hs

theorem of_listenRaises (hs : AsyncRuntime.step s (.listenRaises e) = some s') :
    s.flight.jobs e = some .running ∧ { s with flight := s.flight.jobRaises e } = s' := by
  cases hj : s.flight.jobs e with
  | none => simp only [AsyncRuntime.step, hj] at hs; cases hs
  | some j =>
    cases j with
    | running =>
      simp only [AsyncRuntime.step, hj] at hs
      exact ⟨rfl, Option.some.inj hs⟩
    | returned packet' => simp only [AsyncRuntime.step, hj] at hs; cases hs
    | raised => simp only [AsyncRuntime.step, hj] at hs; cases hs

/-- A thread that gets a packet holds it. -/
theorem held_jobReturns (hj : s.flight.jobs e = some .running) {packet : Incoming α} :
    Held { s with flight := s.flight.jobReturns e packet } txId idx reply ↔
      s.Held txId idx reply ∨ packet = .respondExecute txId idx reply := by
  unfold Held
  rw [or_assoc]
  refine or_congr_right ⟨?_, ?_⟩
  · rintro ⟨e', hj'⟩
    change Function.update s.flight.jobs e (some (.returned packet)) e' = _ at hj'
    by_cases he : e' = e
    · subst he
      rw [Function.update_self] at hj'
      exact .inr (Job.returned.inj (Option.some.inj hj'))
    · rw [Function.update_of_ne he] at hj'
      exact .inl ⟨e', hj'⟩
  · rintro (⟨e', hj'⟩ | rfl)
    · -- The thread of this job was still running.
      have he : e' ≠ e := by
        rintro rfl
        rw [hj] at hj'
        cases hj'
      exact ⟨e', (Function.update_of_ne he ..).trans hj'⟩
    · exact ⟨e, Function.update_self ..⟩

theorem Streams.jobReturns (h : Streams replies heard s) (hj : s.flight.jobs e = some .running)
    {packet : Incoming α}
    (hp : ∀ t i r, packet = .respondExecute t i r → (replies t)[i]? = some r) :
    Streams replies (heard ++ [packet]) { s with flight := s.flight.jobReturns e packet } := by
  constructor
  · intro t i r hr
    rcases (held_jobReturns hj).mp hr with hr | hr
    · exact h.genuine t i r hr
    · exact hp t i r hr
  · intro t i r hmem ho
    rw [held_jobReturns hj]
    rcases List.mem_append.mp hmem with hmem | hmem
    · exact .inl (h.kept t i r hmem ho)
    · exact .inr (List.mem_singleton.mp hmem).symm
  · exact h.reads

/-- A step keeps the streams, when the reply that comes with it is one of its transaction. -/
theorem Streams.step (h : Streams replies heard s) (hr : Regular s)
    (hs : AsyncRuntime.step s a = some s')
    (hheard : ∀ t i r, a.heard = some (.respondExecute t i r) → (replies t)[i]? = some r) :
    Streams replies (heard ++ a.heard.toList) s' := by
  -- A step that hears nothing.
  have hquiet : a.heard = none → Streams replies heard s' →
      Streams replies (heard ++ a.heard.toList) s' := by
    intro hnone h'
    rw [hnone, Option.toList_none, List.append_nil]
    exact h'
  cases a with
  | call txId iter =>
    refine hquiet rfl ?_
    simp only [AsyncRuntime.step] at hs
    cases htask : s.tasks txId with
    | some task => simp only [htask] at hs; cases hs
    | none =>
      simp only [htask] at hs
      rw [← Option.some.inj hs]
      have hreads : AsyncTask.Reads (replies txId) (⟨iter, 0, .looping, []⟩ : AsyncTask α) := by
        refine ⟨Nat.zero_le _, rfl, ?_, ?_⟩
        · rintro - reply ⟨⟩
        · rintro ⟨⟩
      exact h.of_setTask (fun _ _ _ => Iff.rfl) rfl hreads fun _ => htask
  | run txId =>
    refine hquiet rfl ?_
    simp only [AsyncRuntime.step] at hs
    cases htask : s.tasks txId with
    | none => simp only [htask] at hs; cases hs
    | some task =>
      simp only [htask] at hs
      cases hstage : task.stage with
      | looping =>
        simp only [hstage] at hs
        exact h.resume hr htask hstage hs
      | ended => simp only [hstage] at hs; cases hs
      | finishing =>
        simp only [hstage] at hs
        rw [← Option.some.inj hs]
        exact h.finish htask
  | cancel txId =>
    refine hquiet rfl ?_
    simp only [AsyncRuntime.step] at hs
    cases htask : s.tasks txId with
    | none => simp only [htask] at hs; cases hs
    | some task =>
      simp only [htask] at hs
      split_ifs at hs
      rw [← Option.some.inj hs]
      exact h.of_setTask (fun _ _ _ => Iff.rfl) rfl (reads_ended (h.reads txId task htask))
        (by rintro ⟨⟩)
  | listenReturns e packet =>
    obtain ⟨hj, rfl⟩ := of_listenReturns hs
    exact h.jobReturns hj fun t i r hp => hheard t i r (congrArg some hp)
  | listenRaises e =>
    refine hquiet rfl ?_
    obtain ⟨hj, rfl⟩ := of_listenRaises hs
    -- The job had no packet yet.
    have hjobs : ∀ e' p, (s.flight.jobRaises e).jobs e' = some (.returned p) ↔
        s.flight.jobs e' = some (.returned p) := by
      intro e' p
      by_cases he : e' = e
      · subst he
        simp [Flight.jobRaises, hj]
      · simp [Flight.jobRaises, he]
    have hheld : ∀ t i r, Held { s with flight := s.flight.jobRaises e } t i r ↔ s.Held t i r :=
      fun t i r => or_congr_right (exists_congr fun e' => hjobs e' _)
    exact h.of_held (fun t i r => (hheld t i r).mp) (fun t i r _ => (hheld t i r).mpr)
      (fun _ _ ho => ho) h.reads

theorem streams_initial : Streams replies [] (initial : AsyncRuntime α) := by
  refine ⟨fun t i r hheld => ?_, fun t i r hmem => ?_, fun t task ht => ?_⟩
  · rcases hheld with hthere | ⟨e, hj⟩
    · cases hthere
    · cases hj
  · cases hmem
  · cases ht

/-- A run keeps the streams, when the replies that come with it are those of their transactions. -/
theorem Streams.run {as : List (AsyncAct α)} (h : Streams replies heard s) (hr : Regular s)
    (hs : run AsyncRuntime.step s as = some s')
    (hheard : ∀ t i r, .respondExecute t i r ∈ delivered as → (replies t)[i]? = some r) :
    Streams replies (heard ++ delivered as) s' ∧ Regular s' := by
  induction as generalizing s heard with
  | nil =>
    rw [← Option.some.inj hs, delivered, List.filterMap_nil, List.append_nil]
    exact ⟨h, hr⟩
  | cons a as ih =>
    rw [run_cons] at hs
    obtain ⟨s₁, hstep, hrest⟩ := Option.bind_eq_some_iff.mp hs
    have hsplit : delivered (a :: as) = a.heard.toList ++ delivered as := by
      cases hheard : a.heard with
      | none => simp [delivered, hheard]
      | some packet => simp [delivered, hheard]
    rw [hsplit] at hheard ⊢
    have h₁ := h.step hr hstep fun t i r ha =>
      hheard t i r (List.mem_append_left _ (by rw [ha]; exact List.mem_singleton_self _))
    rw [← List.append_assoc]
    exact ih h₁ (hr.step hstep) hrest fun t i r hmem =>
      hheard t i r (List.mem_append_right _ hmem)

/-! ## Calls whose replies have come -/

/-- What careful steps keep of a runtime. -/
structure Live (replies : TxId → List (Reply α)) (heard : List (Incoming α))
    (s : AsyncRuntime α) : Prop where
  regular : Regular s
  sound : s.flight.Sound
  streams : Streams replies heard s

theorem Quiet.careful (ha : a.Quiet) : Careful s a := by
  cases a with
  | run txId => trivial
  | listenReturns e packet => trivial
  | call txId iter | cancel txId | listenRaises e => cases ha

/-- A quiet step keeps what is held. -/
theorem Live.step_quiet (h : Live replies heard s) (ha : a.Quiet)
    (hs : AsyncRuntime.step s a = some s') : Live replies heard s' := by
  -- It hears a timeout at most.
  have hnone : ∀ t i r, a.heard ≠ some (.respondExecute t i r) := by
    rintro t i r hheard
    cases a with
    | listenReturns e packet =>
      obtain rfl := Option.some.inj hheard
      cases ha
    | call | run | cancel | listenRaises => cases hheard
  have hstep := h.streams.step h.regular hs fun t i r hheard => absurd hheard (hnone t i r)
  refine ⟨h.regular.step hs, h.regular.sound_step h.sound (Quiet.careful ha) hs, hstep.genuine,
    fun t i r hmem => hstep.kept t i r (List.mem_append_left _ hmem), hstep.reads⟩

theorem Live.run_quiet {as : List (AsyncAct α)} (h : Live replies heard s)
    (ha : ∀ a ∈ as, a.Quiet) (hs : run AsyncRuntime.step s as = some s') :
    Live replies heard s' := by
  induction as generalizing s with
  | nil =>
    rw [← Option.some.inj hs]
    exact h
  | cons a as ih =>
    rw [run_cons] at hs
    obtain ⟨s₁, hstep, hrest⟩ := Option.bind_eq_some_iff.mp hs
    exact ih (h.step_quiet (ha a (.head _)) hstep) (fun a' h' => ha a' (List.mem_cons_of_mem _ h'))
      hrest

/-- A careful run from the start. -/
theorem live_of_run {as : List (AsyncAct α)} (hs : run AsyncRuntime.step initial as = some s)
    (hm : Meets AsyncRuntime.step Careful initial as)
    (hheard : ∀ t i r, .respondExecute t i r ∈ delivered as → (replies t)[i]? = some r) :
    Live replies (delivered as) s := by
  obtain ⟨hstreams, hregular⟩ := streams_initial.run regular_initial hs hheard
  have hsound : Regular s ∧ s.flight.Sound :=
    (ReachVia.init.of_run hm hs).invariant (P := fun s => Regular s ∧ s.flight.Sound)
      ⟨regular_initial, Flight.sound_free⟩
      fun _ _ _ _ h hok hstep => ⟨h.1.step hstep, h.1.sound_step h.2 hok hstep⟩
  exact ⟨hregular, hsound.2, hstreams⟩

/-- A call at the head of its loop, or whose event is fired, takes the reply that is there. -/
theorem takes (htask : s.tasks txId = some task) (hstage : task.stage = .looping)
    (hstation : s.flight.station txId = .elsewhere ∨
      ∃ e, s.flight.station txId = .waiting e ∧ e ∈ s.flight.fired)
    (hr : s.buffers.execResponses txId task.idx = some reply) :
    ∃ s', AsyncRuntime.step s (.run txId) = some s' ∧
      s'.tasks txId = some (nextTask task reply) := by
  rcases hstation with hstation | ⟨e, hstation, hfired⟩
  · refine ⟨s.take txId task reply, ?_, Function.update_self ..⟩
    simp only [AsyncRuntime.step, htask, hstage, AsyncRuntime.resume, hstation,
      AsyncRuntime.loopHead, hr]
  · refine ⟨{ s with flight := s.flight.move txId .elsewhere }.take txId task reply, ?_,
      Function.update_self ..⟩
    simp only [AsyncRuntime.step, htask, hstage, AsyncRuntime.resume, hstation, if_pos hfired,
      AsyncRuntime.loopHead, hr]

/-- When the thread of the lock has returned, a call whose reply is held takes it in the next steps. -/
theorem Live.takes_returned (h : Live replies heard s) (htask : s.tasks txId = some task)
    (hstage : task.stage = .looping) (hheld : s.Held txId task.idx reply) {u : TxId}
    (hu : s.flight.station u = .working e) {packet : Incoming α}
    (hj : s.flight.jobs e = some (.returned packet)) :
    ∃ as s', run AsyncRuntime.step s as = some s' ∧ (∀ a ∈ as, a.Quiet) ∧
      s'.tasks txId = some (nextTask task reply) := by
  have hlock := h.regular.flying.working u e hu
  obtain ⟨taskU, htaskU, hstageU⟩ := h.regular.looping u (by rw [hu]; rintro ⟨⟩)
  -- The call that has listened stores its packet, fires the event, and is at the head of its loop.
  let s₁ : AsyncRuntime α :=
    { s with buffers := s.buffers.store packet, flight := s.flight.finish u e }
  have hstep : AsyncRuntime.step s (.run u) = some (s₁.loopHead u taskU) := by
    have hne : s.flight.lock ≠ none := by
      rw [hlock]
      exact Option.some_ne_none e
    simp only [AsyncRuntime.step, htaskU, hstageU, AsyncRuntime.resume, hu, hj, if_neg hne]
    rfl
  have hthere : s₁.buffers.execResponses txId task.idx = some reply := by
    have hheld₁ : s₁.Held txId task.idx reply := by
      rw [h.streams.held_store h.regular.flying hu hj]
      exact hheld
    rcases hheld₁ with hthere | ⟨e', hj'⟩
    · exact hthere
    · have hnone := (h.regular.flying.finish hu).jobs_eq_none (e := e') rfl
      rw [hnone] at hj'
      cases hj'
  by_cases hut : u = txId
  · -- It is the call itself.
    subst hut
    obtain rfl := Option.some.inj (htask.symm.trans htaskU)
    refine ⟨[.run u], _, by rw [run_cons, hstep]; rfl, fun a ha => ?_, ?_⟩
    · rw [List.mem_singleton.mp ha]
      trivial
    · simp only [AsyncRuntime.loopHead, hthere]
      exact Function.update_self ..
  · -- It is another call, which wakes this one.
    have hspares := loopHead_spares s₁ taskU (Ne.symm hut)
    have hstation₁ : s₁.flight.station txId = s.flight.station txId :=
      Flight.station_finish_of_ne (Ne.symm hut)
    have hfired₁ : s₁.flight.fired = insert e s.flight.fired := by
      show (s.flight.finish u e).fired = _
      simp only [Flight.finish, hlock]
    have hwoken : (s₁.loopHead u taskU).flight.station txId = .elsewhere ∨
        ∃ e', (s₁.loopHead u taskU).flight.station txId = .waiting e' ∧
          e' ∈ (s₁.loopHead u taskU).flight.fired := by
      rw [hspares.station, hspares.fired, hstation₁, hfired₁]
      cases hst : s.flight.station txId with
      | elsewhere => exact .inl rfl
      | working e' => exact absurd (h.regular.flying.unique u txId e e' hu hst) hut
      | waiting e' =>
        refine .inr ⟨e', rfl, ?_⟩
        rcases h.sound.waiting txId e' hst with hfired | hlock'
        · exact Finset.mem_insert_of_mem hfired
        · rw [Option.some.inj (hlock'.symm.trans hlock)]
          exact Finset.mem_insert_self ..
    obtain ⟨s', hrun, htask'⟩ := takes (hspares.tasks.trans htask) hstage hwoken
      (by rw [hspares.replies]; exact hthere)
    refine ⟨[.run u, .run txId], s', ?_, fun a ha => ?_, htask'⟩
    · rw [run_cons, hstep]
      show run AsyncRuntime.step (s₁.loopHead u taskU) [.run txId] = some s'
      rw [run_cons, hrun]
      rfl
    · obtain rfl | rfl : a = .run u ∨ a = .run txId := by simpa using ha
      · trivial
      · trivial

/-- A call whose next reply is held takes it in the next steps, without another packet. -/
theorem Live.advance (h : Live replies heard s) (htask : s.tasks txId = some task)
    (hstage : task.stage = .looping) (hheld : s.Held txId task.idx reply) :
    ∃ as s', run AsyncRuntime.step s as = some s' ∧ (∀ a ∈ as, a.Quiet) ∧
      s'.tasks txId = some (nextTask task reply) := by
  cases hlock : s.flight.lock with
  | none =>
    -- Nobody listens, so the reply is in the buffers, and no call has to wait.
    have hthere : s.buffers.execResponses txId task.idx = some reply := by
      rcases hheld with hthere | ⟨e, hj⟩
      · exact hthere
      · rw [h.regular.flying.jobs_eq_none hlock] at hj
        cases hj
    have hstation : s.flight.station txId = .elsewhere ∨
        ∃ e, s.flight.station txId = .waiting e ∧ e ∈ s.flight.fired := by
      cases hst : s.flight.station txId with
      | elsewhere => exact .inl rfl
      | working e => exact absurd hst (h.regular.flying.not_working hlock)
      | waiting e =>
        rcases h.sound.waiting txId e hst with hfired | hlock'
        · exact .inr ⟨e, rfl, hfired⟩
        · rw [hlock] at hlock'
          cases hlock'
    obtain ⟨s', hrun, htask'⟩ := takes htask hstage hstation hthere
    refine ⟨[.run txId], s', by rw [run_cons, hrun]; rfl, fun a ha => ?_, htask'⟩
    rw [List.mem_singleton.mp ha]
    trivial
  | some e =>
    obtain ⟨u, j, hu, hj, hraised⟩ := h.sound.lock e hlock
    cases j with
    | raised => exact absurd rfl hraised
    | returned packet => exact h.takes_returned htask hstage hheld hu hj
    | running =>
      -- Its `client.listen` returns without a packet after its timeout.
      have hstep : AsyncRuntime.step s (.listenReturns e .timeout) =
          some { s with flight := s.flight.jobReturns e .timeout } := by
        simp only [AsyncRuntime.step, hj]
      have h₁ := h.step_quiet (a := .listenReturns e .timeout) trivial hstep
      obtain ⟨as, s', hrun, hquiet, htask'⟩ := h₁.takes_returned htask hstage
        ((held_jobReturns hj).mpr (.inl hheld)) hu (Function.update_self ..)
      refine ⟨.listenReturns e .timeout :: as, s', ?_, ?_, htask'⟩
      · rw [run_cons, hstep]
        exact hrun
      · intro a ha
        rcases List.mem_cons.mp ha with rfl | ha
        · trivial
        · exact hquiet a ha

/-- What a call should take of the replies to its transaction. -/
def answer (iter : Bool) (replies : List (Reply α)) : List (Reply α) :=
  if iter then replies else replies.take 1

/-- A call that ends with a reply has taken what it should. -/
theorem log_nextTask {replies : List (Reply α)} (hc : CompleteReplies replies)
    (h : task.Reads replies) (hstage : task.stage = .looping)
    (hr : replies[task.idx]? = some reply) (hend : (nextTask task reply).stage ≠ .looping) :
    (nextTask task reply).log = answer task.iter replies := by
  have hnext := (reads_nextTask h hstage hr).log
  rw [hnext, answer]
  show replies.take (task.idx + 1) = _
  split_ifs with hiter
  · -- A stream ends with its last reply.
    refine List.take_of_length_le ?_
    by_contra hlt
    obtain ⟨out, hout⟩ := hc.ok_of_lt hr (by omega)
    have hfin : reply.finished = false := by
      rw [Bool.eq_false_iff]
      intro hfin
      have hlast := (hc.finished_iff hr).mp hfin
      omega
    refine hend ?_
    simp only [nextTask, hout, hiter, hfin, if_true, Bool.false_eq_true, if_false]
  · -- Any other call ends with its first reply.
    have hnil : task.log = [] := by
      rw [List.eq_nil_iff_forall_not_mem]
      intro r hmem
      exact hiter (h.looping hstage r hmem).1
    have hzero : task.idx = 0 := by
      have hlen := congrArg List.length h.log
      rw [hnil, List.length_take, List.length_nil] at hlen
      have hle := h.le
      omega
    rw [hzero]

/-- A call whose replies have all come goes on to its end, without another packet. -/
theorem Live.served (h : Live replies heard s) (hc : CompleteReplies (replies txId))
    (hcome : ∀ i r, (replies txId)[i]? = some r → .respondExecute txId i r ∈ heard)
    (htask : s.tasks txId = some task) (hstage : task.stage = .looping) :
    ∃ as s' task', run AsyncRuntime.step s as = some s' ∧ (∀ a ∈ as, a.Quiet) ∧
      s'.tasks txId = some task' ∧ task'.stage ≠ .looping ∧
      task'.log = answer task.iter (replies txId) := by
  -- By the replies that are still to be taken.
  obtain ⟨n, hn⟩ : ∃ n, n = (replies txId).length - task.idx := ⟨_, rfl⟩
  induction n generalizing s task with
  | zero =>
    have hlt := lt_length_of_looping hc (h.streams.reads txId task htask) hstage
    omega
  | succ n ih =>
    have hreads := h.streams.reads txId task htask
    have hlt := lt_length_of_looping hc hreads hstage
    have hr : (replies txId)[task.idx]? = some (replies txId)[task.idx] :=
      List.getElem?_eq_getElem hlt
    have hheld := h.streams.kept txId task.idx _ (hcome _ _ hr) fun task' htask' => by
      obtain rfl := Option.some.inj (htask.symm.trans htask')
      exact ⟨hstage, Nat.le_refl _⟩
    obtain ⟨as, s₁, hrun, hquiet, htask₁⟩ := h.advance htask hstage hheld
    have h₁ := h.run_quiet hquiet hrun
    by_cases hstage₁ : (nextTask task (replies txId)[task.idx]).stage = .looping
    · have hidx : (nextTask task (replies txId)[task.idx]).idx = task.idx + 1 := rfl
      obtain ⟨as', s', task', hrun', hquiet', htask', hend, hlog⟩ :=
        ih h₁ htask₁ hstage₁ (by omega)
      refine ⟨as ++ as', s', task', ?_, ?_, htask', hend, hlog⟩
      · rw [run_append, hrun]
        exact hrun'
      · intro a ha
        rcases List.mem_append.mp ha with ha | ha
        · exact hquiet a ha
        · exact hquiet' a ha
    · exact ⟨as, s₁, _, hrun, hquiet, htask₁, hstage₁, log_nextTask hc hreads hstage hr hstage₁⟩

end AsyncRuntime

end Ailoy
