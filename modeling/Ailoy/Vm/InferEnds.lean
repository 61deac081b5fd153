import Ailoy.Vm.ChatStream

/-!
# The end of an inference

A call of `infer` ends its loops only when the response of a step has the finish reason `stop`. The
engine reports one final output for a request, with the reason `stop`, `length` or `error`, and
nothing for the request behind it. Until then every step leaves the call running (`serve_texts`),
and so does every step without outputs behind it. The final output ends the call exactly when its
reason is `stop` and the engine does not replace it (`infer_ends_iff`).
-/

namespace Ailoy

open Infer (InferCall Iteration Sent)

variable {lib : EngineLibrary} {template : ChatTemplateEngine} {e : MlcLlmEngine lib}
  {requestId : String} {v : Reading lib}

/-! ## A step of the engine -/

/-- The finish reason of the response of a step, whose last output has a finish reason. -/
def finalReason (lib : EngineLibrary) (template : ChatTemplateEngine) (v : Reading lib)
    (reason : FinishReason) (ids : List ℤ) : String :=
  if Overrides lib template v.output (v.chunk (some reason.name) ids).2 then "tool_calls"
  else reason.name

namespace MlcLlmEngine

theorem putResponses_append (uuid : ℕ → String) {drawn drawn₁ : ℕ} {e₁ : MlcLlmEngine lib}
    {responses : List StreamResponse} (responses' : List StreamResponse)
    (h : e.putResponses uuid drawn responses = .ok (e₁, drawn₁)) :
    e.putResponses uuid drawn (responses ++ responses') =
      e₁.putResponses uuid drawn₁ responses' := by
  induction responses generalizing e drawn with
  | nil =>
    obtain ⟨rfl, rfl⟩ := Prod.mk.inj (Except.ok.inj h)
    rfl
  | cons r responses ih =>
    rw [List.cons_append, putResponses]
    rw [putResponses] at h
    cases hchoices : r.choices with
    | nil =>
      rw [hchoices] at h
      exact ih h
    | cons choice rest =>
      rw [hchoices] at h
      dsimp only at h ⊢
      cases hresp : e.responseMap.lookup r.id with
      | none =>
        rw [hresp] at h
        cases h
      | some resp =>
        rw [hresp] at h
        obtain ⟨⟨resp₁, drawn₂⟩, hput, h⟩ := Except.bind_eq_ok_iff.mp h
        dsimp only
        rw [hput, Except.ok_bind]
        exact ih h

theorem callBack_append (uuid : ℕ → String) {drawn drawn₁ : ℕ} {e₁ : MlcLlmEngine lib}
    {callbacks : List (List StreamOutput)} (callbacks' : List (List StreamOutput))
    (h : e.callBack template uuid drawn callbacks = .ok (e₁, drawn₁)) :
    e.callBack template uuid drawn (callbacks ++ callbacks') =
      e₁.callBack template uuid drawn₁ callbacks' := by
  induction callbacks generalizing e drawn with
  | nil =>
    obtain ⟨rfl, rfl⟩ := Prod.mk.inj (Except.ok.inj h)
    rfl
  | cons ds callbacks ih =>
    obtain ⟨⟨e₂, responses⟩, hget, h⟩ := Except.bind_eq_ok_iff.mp h
    obtain ⟨⟨e₃, drawn₃⟩, hput, h⟩ := Except.bind_eq_ok_iff.mp h
    rw [List.cons_append, callBack, hget, Except.ok_bind]
    dsimp only
    rw [hput, Except.ok_bind]
    exact ih h

variable (template) in
/-- The response for the choice of an output with a finish reason. Its content is a newline, unless
the engine replaces the reason. -/
theorem putChoice_final (v : Reading lib) (uuid : ℕ → String) (drawn : ℕ) (mode : OutputMode)
    (resp : ResponseState) {reason : FinishReason} (hreason : reason ≠ .toolCalls) (ids : List ℤ) :
    ∃ resp' drawn' message, resp.putChoice lib mode uuid drawn
        (v.read template (some reason.name) ids).2 = .ok (resp', drawn') ∧
      resp'.finishReason = some (finalReason lib template v reason ids) ∧
      resp'.message = some message ∧
      (¬ Overrides lib template v.output (v.chunk (some reason.name) ids).2 →
        message.content = some [0x0A]) := by
  unfold finalReason
  rcases readChoice_cases lib template v.output (some reason)
    (v.chunk (some reason.name) ids).2 with ⟨hnot, hsame⟩ | ⟨hover, hcall⟩
  · rw [if_neg hnot]
    have hchoice : (v.read template (some reason.name) ids).2.finishReason = some reason := by
      unfold Reading.read
      rw [Option.bind_some, FinishReason.ofName_name]
      exact hsame
    obtain ⟨resp', drawn', message, hput, hfinish, hmessage, hcontent⟩ :=
      resp.putChoice_reason mode uuid drawn hchoice hreason
    exact ⟨resp', drawn', message, hput, hfinish, hmessage, fun _ => hcontent⟩
  · rw [if_pos hover]
    have hchoice : (v.read template (some reason.name) ids).2.IsCall lib := by
      unfold Reading.read
      rw [Option.bind_some, FinishReason.ofName_name]
      exact hcall
    obtain ⟨resp', drawn', hput, hfinish, hmessage⟩ :=
      resp.putChoice_call mode uuid drawn hchoice
    obtain ⟨message, hm⟩ := Option.ne_none_iff_exists'.mp hmessage
    exact ⟨resp', drawn', message, hput, hfinish, hm, fun hnot => absurd hover hnot⟩

/-- Such a choice is not left out of the responses. -/
theorem responseOf_final (v : Reading lib) (reason : FinishReason) (ids : List ℤ) :
    responseOf requestId (v.read template (some reason.name) ids).2 =
      [⟨requestId, [(v.read template (some reason.name) ids).2]⟩] := by
  have hsome : (v.read template (some reason.name) ids).2.finishReason.isSome = true := by
    unfold Reading.read
    rw [Option.bind_some, FinishReason.ofName_name]
    rcases readChoice_cases lib template v.output (some reason)
      (v.chunk (some reason.name) ids).2 with ⟨-, hsame⟩ | ⟨-, hcall⟩
    · exact Option.isSome_of_eq_some hsame
    · exact Option.isSome_of_eq_some hcall.1
  unfold responseOf
  rw [if_pos (by rw [hsome, Bool.or_true])]

variable (template) in
/-- The callbacks of a step whose last output has a finish reason. -/
theorem callBack_final (uuid : ℕ → String) (drawn : ℕ) {callbacks : List (List StreamOutput)}
    {ds : List StreamOutput} (htexts : ∀ d ∈ callbacks.flatten ++ ds, d.IsText requestId)
    {resp : ResponseState} (hresp : e.responseMap.lookup requestId = some resp) (hopen : resp.Open)
    (h : e.Reads requestId v) {reason : FinishReason} (hreason : reason ≠ .toolCalls)
    (ids : List ℤ) :
    ∃ e' drawn' resp' message, e.callBack template uuid drawn
        (callbacks ++ [ds ++ [.single requestId (some reason.name) ids]]) = .ok (e', drawn') ∧
      e'.Reads requestId ((v.readAll template (tokenIds (callbacks.flatten ++ ds))).read template
        (some reason.name) ids).1 ∧
      e'.responseMap.lookup requestId = some resp' ∧
      resp'.message = some message ∧ resp'.finishReason = some (finalReason lib template
        (v.readAll template (tokenIds (callbacks.flatten ++ ds))) reason ids) ∧
      (¬ Overrides lib template (v.readAll template (tokenIds (callbacks.flatten ++ ds))).output
          ((v.readAll template (tokenIds (callbacks.flatten ++ ds))).chunk
            (some reason.name) ids).2 → message.content = some [0x0A]) := by
  obtain ⟨e₁, drawn₁, resp₁, hback, hreads₁, hresp₁, hopen₁⟩ := callBack_texts template
    uuid drawn (fun d hd => htexts d (List.mem_append_left _ hd)) hresp hopen h
  obtain ⟨e₂, responses, hget, hreads₂, hmap₂, hcalm⟩ := getResponse_texts template
    hreads₁ fun d hd => htexts d (List.mem_append_right _ hd)
  rw [← Reading.readAll_append] at hreads₂
  obtain ⟨e₃, hread, hreads₃, hmap₃⟩ :=
    readOutput_single template hreads₂ (some reason.name) ids
  rw [responseOf_final] at hread
  have hlast : e₂.getResponseFromStreamOutput template
      [.single requestId (some reason.name) ids] = .ok (e₃, [⟨requestId,
        [((v.readAll template (tokenIds (callbacks.flatten ++ ds))).read template
          (some reason.name) ids).2]⟩]) := by
    rw [getResponseFromStreamOutput, hread]
    rfl
  have hresp₃ : e₃.responseMap.lookup requestId = some resp₁ := by rw [hmap₃, hmap₂, hresp₁]
  obtain ⟨e₄, drawn₄, resp₄, hput, hreads₄, hresp₄, -⟩ :=
    putResponses_calm uuid drawn₁ hcalm hresp₃ hopen₁ hreads₃
  obtain ⟨resp₅, drawn₅, message, hchoice, hfinish, hmessage, hcontent⟩ := putChoice_final template
    (v.readAll template (tokenIds (callbacks.flatten ++ ds))) uuid drawn₄ e₄.mode resp₄ hreason ids
  refine ⟨{ e₄ with responseMap := e₄.responseMap.insert requestId resp₅ }, drawn₅, resp₅, message,
    ?_, hreads₄.withResponses _, AList.lookup_insert _, hmessage, hfinish, hcontent⟩
  rw [callBack_append uuid _ hback, callBack, getResponse_append hget hlast, Except.ok_bind]
  dsimp only
  rw [putResponses_append uuid _ hput, putResponses]
  dsimp only
  rw [hresp₄]
  dsimp only
  rw [hchoice]
  rfl

end MlcLlmEngine

/-! ## The call -/

namespace Infer

variable {ignoreReasoningMessages : Bool}

variable (template) (ignoreReasoningMessages) in
/-- The iteration of the step function, from the response that the callbacks have made. -/
theorem iterate_of_callBack {e' : MlcLlmEngine lib} {s : EngineStep} {drawn : ℕ}
    {resp : ResponseState}
    (hback : MlcLlmEngine.callBack template s.uuid
      { e with responseMap := e.responseMap.insert requestId ⟨none, none⟩ } 0 s.callbacks =
        .ok (e', drawn))
    (herror : e'.lastError = none) (hresp : e'.responseMap.lookup requestId = some resp) :
    iterate template ignoreReasoningMessages e requestId s =
      match resp.message with
      | none => .ok ({ e' with responseMap := e'.responseMap.erase requestId }, .again)
      | some message =>
        if resp.finishReason.isSome then
          .ok ({ e' with responseMap := e'.responseMap.erase requestId },
            .output message resp.finishReason)
        else do
          let dismissed ← dismissDelta ignoreReasoningMessages message
          return ({ e' with responseMap := e'.responseMap.erase requestId },
            if dismissed then .again else .output message resp.finishReason) := by
  unfold iterate MlcLlmEngine.stepChatCompletion
  dsimp only
  rw [hback, Except.ok_bind]
  cases hmessage : resp.message with
  | none => simp [herror, hresp, hmessage, pure, Except.pure]
  | some message =>
    by_cases hfinish : resp.finishReason.isSome = true
    · simp [herror, hresp, hmessage, hfinish, pure, Except.pure]
    · cases hdismiss : dismissDelta ignoreReasoningMessages message with
      | error f => simp [herror, hresp, hmessage, hfinish, hdismiss, pure, Except.pure]
      | ok d => cases d <;> simp [herror, hresp, hmessage, hfinish, hdismiss, pure, Except.pure]

/-- A call that runs and reads the outputs of its request from `v`. -/
structure Reads (c : InferCall lib) (requestId : String) (v : Reading lib) : Prop where
  running : c.running = true
  request : c.requestId = requestId
  engine : c.engine.Reads requestId v

/-- The response that a step begins with. -/
theorem open_fresh : ResponseState.Open ⟨none, none⟩ := .inl ⟨rfl, by simp⟩

/-- The packets for the response of a step. There is none when nothing came, and none when the delta
is dismissed. -/
def packets (ignoreReasoningMessages : Bool) (sequence : ℕ) (resp : ResponseState) : List Sent :=
  match resp.message, resp.finishReason with
  | none, _ => []
  | some message, some reason => [.delta sequence (reason = "stop") message (some reason)]
  | some message, none =>
    match dismissDelta ignoreReasoningMessages message with
    | .ok false => [.delta sequence false message none]
    | _ => []

variable (template) (ignoreReasoningMessages) in
/-- A step of the call, from the response that the callbacks have made. Only a finish reason comes
without a content. -/
theorem advance_of_callBack {c : InferCall lib} (h : Reads c requestId v) {v' : Reading lib}
    {e' : MlcLlmEngine lib} {s : EngineStep} {drawn : ℕ} {resp : ResponseState}
    (hback : MlcLlmEngine.callBack template s.uuid { c.engine with
      responseMap := c.engine.responseMap.insert requestId ⟨none, none⟩ } 0 s.callbacks =
        .ok (e', drawn))
    (hreads : e'.Reads requestId v') (hresp : e'.responseMap.lookup requestId = some resp)
    (hcontent : resp.finishReason = none → ∀ m, resp.message = some m → m.content ≠ none) :
    ∃ c', c.advance template ignoreReasoningMessages s = .ok c' ∧
      c'.sent = c.sent ++ packets ignoreReasoningMessages c.sequence resp ∧
      c'.running = !(resp.message.isSome && resp.finishReason = some "stop") ∧
      c'.requestId = requestId ∧ c'.engine.Reads requestId v' := by
  obtain ⟨hrunning, rfl, -⟩ := h
  have hreads' := hreads.withResponses (e'.responseMap.erase c.requestId)
  unfold InferCall.advance packets
  rw [if_pos hrunning,
    iterate_of_callBack template ignoreReasoningMessages hback hreads.lastError hresp]
  obtain ⟨message, finishReason⟩ := resp
  cases message with
  | none => exact ⟨_, rfl, (List.append_nil _).symm, hrunning, rfl, hreads'⟩
  | some message =>
    cases finishReason with
    | some reason => exact ⟨_, rfl, by simp, by simp, rfl, hreads'⟩
    | none =>
      -- The content is a text, so the delta is sent or dismissed.
      obtain ⟨content, hc⟩ := Option.ne_none_iff_exists'.mp (hcontent rfl message rfl)
      have hdismiss : ∃ dismissed, dismissDelta ignoreReasoningMessages message = .ok dismissed := by
        unfold dismissDelta
        rw [hc]
        exact ⟨_, rfl⟩
      obtain ⟨dismissed, hdismiss⟩ := hdismiss
      dsimp only
      rw [hdismiss]
      cases dismissed with
      | true => exact ⟨_, rfl, (List.append_nil _).symm, hrunning, rfl, hreads'⟩
      | false => exact ⟨_, rfl, rfl, rfl, rfl, hreads'⟩

variable (template) (ignoreReasoningMessages) in
/-- A step without a finish reason leaves the call running. -/
theorem advance_text {c : InferCall lib} (h : Reads c requestId v) {s : EngineStep}
    (hs : s.IsText requestId) :
    ∃ c', c.advance template ignoreReasoningMessages s = .ok c' ∧
      Reads c' requestId (v.readAll template (tokenIds s.callbacks.flatten)) := by
  obtain ⟨e', drawn, resp, hback, hreads, hresp, hopen⟩ :=
    MlcLlmEngine.callBack_texts template s.uuid 0 hs (AList.lookup_insert _)
      open_fresh (h.engine.withResponses _)
  have hcontent : resp.finishReason = none → ∀ m, resp.message = some m → m.content ≠ none := by
    intro hnone
    rcases hopen with ⟨-, hcontent⟩ | ⟨hcall, -⟩
    · exact hcontent
    · rw [hnone] at hcall
      cases hcall
  obtain ⟨c', hadvance, -, hrunning, hid, hreads'⟩ := advance_of_callBack template
    ignoreReasoningMessages h hback hreads hresp hcontent
  refine ⟨c', hadvance, ?_, hid, hreads'⟩
  rw [hrunning]
  rcases hopen with ⟨hnone, -⟩ | ⟨hcall, -⟩
  · rw [hnone]
    simp
  · rw [hcall]
    simp

variable (template) (ignoreReasoningMessages) in
/-- Steps without a finish reason leave the call running. -/
theorem serve_texts {c : InferCall lib} (h : Reads c requestId v) {steps : List EngineStep}
    (hsteps : ∀ s ∈ steps, s.IsText requestId) :
    ∃ c', c.serve template ignoreReasoningMessages steps = .ok c' ∧
      Reads c' requestId
        (v.readAll template (tokenIds (steps.flatMap fun s => s.callbacks.flatten))) := by
  induction steps generalizing c v with
  | nil => exact ⟨c, rfl, h⟩
  | cons s steps ih =>
    obtain ⟨c₁, hadvance, h₁⟩ :=
      advance_text template ignoreReasoningMessages h (hsteps s List.mem_cons_self)
    obtain ⟨c₂, hserve, h₂⟩ := ih h₁ fun s hs => hsteps s (List.mem_cons_of_mem _ hs)
    refine ⟨c₂, ?_, ?_⟩
    · rw [InferCall.serve, hadvance]
      exact hserve
    · rw [List.flatMap_cons, Reading.readAll_append]
      exact h₂

variable (template) (ignoreReasoningMessages) in
/-- The step with the final output: its packet has the finish flag exactly when the reason of the
response is `stop`, and then the call has ended. Otherwise the call runs on. -/
theorem advance_final {c : InferCall lib} (h : Reads c requestId v) {s : EngineStep}
    {callbacks : List (List StreamOutput)} {ds : List StreamOutput} {reason : FinishReason}
    {ids : List ℤ}
    (hs : s.callbacks = callbacks ++ [ds ++ [.single requestId (some reason.name) ids]])
    (htexts : ∀ d ∈ callbacks.flatten ++ ds, d.IsText requestId) (hreason : reason ≠ .toolCalls) :
    ∃ c' message v', c.advance template ignoreReasoningMessages s = .ok c' ∧
      c'.sent = c.sent ++ [.delta c.sequence (decide (finalReason lib template
        (v.readAll template (tokenIds (callbacks.flatten ++ ds))) reason ids = "stop")) message
        (some (finalReason lib template
          (v.readAll template (tokenIds (callbacks.flatten ++ ds))) reason ids))] ∧
      c'.running = !decide (finalReason lib template
        (v.readAll template (tokenIds (callbacks.flatten ++ ds))) reason ids = "stop") ∧
      c'.requestId = requestId ∧ c'.engine.Reads requestId v' ∧
      (¬ Overrides lib template (v.readAll template (tokenIds (callbacks.flatten ++ ds))).output
          ((v.readAll template (tokenIds (callbacks.flatten ++ ds))).chunk
            (some reason.name) ids).2 → message.content = some [0x0A]) := by
  obtain ⟨e', drawn, ⟨message, finishReason⟩, m, hback, hreads', hresp, rfl, rfl, hcontent⟩ :=
    MlcLlmEngine.callBack_final template s.uuid 0 htexts (AList.lookup_insert _)
      open_fresh (h.engine.withResponses _) hreason ids
  rw [← hs] at hback
  obtain ⟨c', hadvance, hsent, hrunning, hid, hreads⟩ := advance_of_callBack template
    ignoreReasoningMessages h hback hreads' hresp fun hnone => absurd hnone (Option.some_ne_none _)
  refine ⟨c', m, _, hadvance, hsent, ?_, hid, hreads, hcontent⟩
  rw [hrunning]
  simp

theorem serve_append {c c₁ : InferCall lib} {steps : List EngineStep} (steps' : List EngineStep)
    (h : c.serve template ignoreReasoningMessages steps = .ok c₁) :
    c.serve template ignoreReasoningMessages (steps ++ steps') =
      c₁.serve template ignoreReasoningMessages steps' := by
  induction steps generalizing c with
  | nil =>
    obtain rfl := Except.ok.inj h
    rfl
  | cons s steps ih =>
    obtain ⟨c₂, hadvance, hserve⟩ := Except.bind_eq_ok_iff.mp h
    rw [List.cons_append, InferCall.serve, hadvance, Except.ok_bind]
    exact ih hserve

end Infer

/-! ## A whole request -/

/-- The steps of the engine for a request: outputs without a finish reason, and in the last step
behind such outputs the final one. -/
structure Script (requestId : String) where
  steps : List EngineStep
  callbacks : List (List StreamOutput)
  before : List StreamOutput
  reason : FinishReason
  ids : List ℤ
  uuid : ℕ → String
  steps_text : ∀ s ∈ steps, s.IsText requestId
  last_text : ∀ d ∈ callbacks.flatten ++ before, d.IsText requestId
  reason_ne : reason ≠ .toolCalls

namespace Script

variable (script : Script requestId) (template) (ignoreReasoningMessages : Bool)

/-- The step with the final output. -/
def last : EngineStep :=
  ⟨script.callbacks ++ [script.before ++ [.single requestId (some script.reason.name) script.ids]],
    script.uuid⟩

/-- The outputs before the final one. -/
def texts : List StreamOutput :=
  script.steps.flatMap (fun s => s.callbacks.flatten) ++
    (script.callbacks.flatten ++ script.before)

/-- The reading of the final output, on an engine in an output mode. -/
def finalReading (lib : EngineLibrary) (o : OutputState) : Reading lib :=
  Reading.readAll template ⟨lib.textStreamer, o⟩ (tokenIds script.texts)

/-- The final output ends the request with `stop`: that is its reason, and the engine does not
replace it. -/
def Stops (lib : EngineLibrary) (o : OutputState) : Prop :=
  script.reason = .stop ∧ ¬ Overrides lib template (script.finalReading template lib o).output
    ((script.finalReading template lib o).chunk (some script.reason.name) script.ids).2

/-- The packet for the final output has the finish flag, and no further step is executed. -/
def Finishes (e : MlcLlmEngine lib) : Prop :=
  ∃ c c' message finishReason,
    (InferCall.start e requestId none).serve template ignoreReasoningMessages script.steps = .ok c ∧
    c.running = true ∧ c.advance template ignoreReasoningMessages script.last = .ok c' ∧
    c'.sent = c.sent ++ [.delta c.sequence true message finishReason] ∧ c'.running = false

/-- The loops come to an end, when the engine reports nothing behind the final output. -/
def Terminates (e : MlcLlmEngine lib) : Prop :=
  ∃ (quiet : List EngineStep) (c : InferCall lib),
    (∀ s ∈ quiet, s.callbacks.flatten = []) ∧
    (InferCall.start e requestId none).serve template ignoreReasoningMessages
      (script.steps ++ script.last :: quiet) = .ok c ∧ c.running = false

variable {script} {template} {ignoreReasoningMessages}

/-- The finish reason of the last response is `stop` exactly when the final output stops. -/
theorem finalReason_eq_stop_iff {o : OutputState} :
    finalReason lib template (script.finalReading template lib o) script.reason script.ids =
        "stop" ↔
      script.Stops template lib o := by
  have hname : script.reason.name = "stop" ↔ script.reason = .stop := by
    cases script.reason <;> decide
  unfold finalReason Stops
  split_ifs with hover
  · exact ⟨fun h => absurd h (by decide), fun h => absurd hover h.2⟩
  · exact ⟨fun h => ⟨hname.mp h, hover⟩, fun h => hname.mpr h.1⟩

variable (script) (template) (ignoreReasoningMessages) in
/-- The call up to the final output, and behind it. -/
theorem serve_last (herror : e.lastError = none) :
    ∃ c c' message v,
      (InferCall.start e requestId none).serve template ignoreReasoningMessages script.steps =
        .ok c ∧ c.running = true ∧
      c.advance template ignoreReasoningMessages script.last = .ok c' ∧
      c'.sent = c.sent ++ [.delta c.sequence
        (decide (finalReason lib template (script.finalReading template lib e.toOutputState)
          script.reason script.ids = "stop")) message
        (some (finalReason lib template (script.finalReading template lib e.toOutputState)
          script.reason script.ids))] ∧
      c'.running = !decide (finalReason lib template
        (script.finalReading template lib e.toOutputState) script.reason script.ids = "stop") ∧
      c'.requestId = requestId ∧ c'.engine.Reads requestId v := by
  have hstart : Infer.Reads (InferCall.start e requestId none) requestId
      ⟨lib.textStreamer, e.toOutputState⟩ :=
    ⟨rfl, rfl, AList.lookup_insert _, rfl, herror⟩
  obtain ⟨c, hserve, hc⟩ :=
    Infer.serve_texts template ignoreReasoningMessages hstart script.steps_text
  have hlast : script.last.callbacks = script.callbacks ++
      [script.before ++ [.single requestId (some script.reason.name) script.ids]] := rfl
  have hfinal := Infer.advance_final template ignoreReasoningMessages hc hlast script.last_text
    script.reason_ne
  rw [← Reading.readAll_append] at hfinal
  obtain ⟨c', message, v, hadvance, hsent, hrunning, hid, hreads, -⟩ := hfinal
  exact ⟨c, c', message, v, hserve, hc.running, hadvance, hsent, hrunning, hid, hreads⟩

theorem finishes_iff (herror : e.lastError = none) :
    script.Finishes template ignoreReasoningMessages e ↔
      script.Stops template lib e.toOutputState := by
  obtain ⟨c, c', message, v, hserve, hrunning, hadvance, hsent, hend, -, -⟩ :=
    serve_last template script ignoreReasoningMessages herror
  rw [← finalReason_eq_stop_iff]
  constructor
  · rintro ⟨c₁, c₁', message₁, finishReason₁, hserve₁, -, hadvance₁, -, hend₁⟩
    obtain rfl : c = c₁ := Except.ok.inj (hserve.symm.trans hserve₁)
    obtain rfl : c' = c₁' := Except.ok.inj (hadvance.symm.trans hadvance₁)
    rw [hend] at hend₁
    simpa using hend₁
  · intro hstop
    rw [decide_eq_true hstop] at hsent hend
    exact ⟨c, c', message, _, hserve, hrunning, hadvance, hsent, hend⟩

theorem terminates_iff (herror : e.lastError = none) :
    script.Terminates template ignoreReasoningMessages e ↔
      script.Stops template lib e.toOutputState := by
  obtain ⟨c, c', message, v, hserve, -, hadvance, -, hend, hid, hreads⟩ :=
    serve_last template script ignoreReasoningMessages herror
  rw [← finalReason_eq_stop_iff]
  constructor
  · rintro ⟨quiet, c₁, hquiet, hall, hc₁⟩
    by_contra hgo
    rw [decide_eq_false hgo] at hend
    -- The steps behind the final output are steps without a finish reason, too.
    have htexts : ∀ s ∈ quiet, s.IsText requestId := by
      intro s hs d hd
      rw [hquiet s hs] at hd
      cases hd
    obtain ⟨c₂, hserve₂, hc₂⟩ :=
      Infer.serve_texts template ignoreReasoningMessages ⟨hend, hid, hreads⟩ htexts
    rw [Infer.serve_append _ hserve, InferCall.serve, hadvance, Except.ok_bind, hserve₂] at hall
    obtain rfl := Except.ok.inj hall
    rw [hc₂.running] at hc₁
    cases hc₁
  · intro hstop
    rw [decide_eq_true hstop] at hend
    refine ⟨[], c', by simp, ?_, hend⟩
    rw [Infer.serve_append _ hserve, InferCall.serve, hadvance]
    rfl

end Script

/-- Exactly when the final output has the reason `stop` and the engine does not replace it, its
packet has the finish flag, and the loops end. Otherwise they never do. -/
theorem infer_ends_iff (lib : EngineLibrary) (template : ChatTemplateEngine)
    (ignoreReasoningMessages : Bool) (e : MlcLlmEngine lib) (herror : e.lastError = none)
    (requestId : String) (script : Script requestId) :
    (script.Finishes template ignoreReasoningMessages e ↔
      script.Stops template lib e.toOutputState) ∧
    (script.Terminates template ignoreReasoningMessages e ↔
      script.Stops template lib e.toOutputState) :=
  ⟨Script.finishes_iff herror, Script.terminates_iff herror⟩

/-- Tokens that are bytes, and the empty JSON object. -/
def byteLibrary : EngineLibrary where
  TextStreamer := Unit
  textStreamer := ()
  put s ids := (s, ids.map fun i => UInt8.ofNat i.toNat)
  finish s := (s, [])
  parse text := if text = [0x7B, 0x7D] then some (.object []) else none
  picojsonError _ := none

/-- The markers `<` and `>` of a tool call segment. -/
def angleTemplate : ChatTemplateEngine := ⟨[0x3C], [0x3E]⟩

theorem StreamOutput.isText_of_none (requestId : String) :
    ∀ d ∈ ([] : List (List StreamOutput)).flatten ++ [], d.IsText requestId := by simp

/-- The text `a`, and then `b` with a finish reason. -/
def twoSteps (reason : FinishReason) (h : reason ≠ .toolCalls) : Script "r" where
  steps := [⟨[[.single "r" none [0x61]]], fun _ => "u"⟩]
  callbacks := []
  before := []
  reason := reason
  ids := [0x62]
  uuid := fun _ => "u"
  steps_text := by
    intro s hs d hd
    rw [List.mem_singleton.mp hs] at hd
    exact ⟨_, List.mem_singleton.mp hd⟩
  last_text := StreamOutput.isText_of_none "r"
  reason_ne := h

theorem infer_ends_iff_twoSteps :
    ((twoSteps .stop (by decide)).Finishes angleTemplate false (@MlcLlmEngine.created byteLibrary) ↔
      (twoSteps .stop (by decide)).Stops angleTemplate byteLibrary ⟨.text, []⟩) ∧
    ((twoSteps .stop (by decide)).Terminates angleTemplate false
        (@MlcLlmEngine.created byteLibrary) ↔
      (twoSteps .stop (by decide)).Stops angleTemplate byteLibrary ⟨.text, []⟩) :=
  infer_ends_iff byteLibrary angleTemplate false MlcLlmEngine.created rfl "r"
    (twoSteps .stop (by decide))

/-- A request that the engine ends with the reason `length` never ends. -/
theorem length_not_terminates :
    ¬ (twoSteps .length (by decide)).Finishes angleTemplate false
        (@MlcLlmEngine.created byteLibrary) ∧
      ¬ (twoSteps .length (by decide)).Terminates angleTemplate false
        (@MlcLlmEngine.created byteLibrary) := by
  have hgo : ¬ (twoSteps .length (by decide)).Stops angleTemplate byteLibrary ⟨.text, []⟩ :=
    fun h => absurd h.1 (by decide)
  constructor
  · exact fun h => hgo ((Script.finishes_iff rfl).mp h)
  · exact fun h => hgo ((Script.terminates_iff rfl).mp h)

end Ailoy
