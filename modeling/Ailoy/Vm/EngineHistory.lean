import Ailoy.Lib.Transition
import Ailoy.Vm.InferEnds

/-!
# Requests on one engine

The output mode and the collected texts belong to the engine, and `initialize_chat_completion` does
not touch them. What the engine does with the outputs of a request depends on its `view` for that
request alone: the output mode, the streamers of the request, and the last error. A new request
finds the view of a fresh engine exactly when the requests before it left the output mode at `text`
and no error (`requests_independent_iff`). There the collected texts are empty, since only in a tool
call segment they are not.
-/

namespace Ailoy

open Infer (InferCall Sent)

variable {lib : EngineLibrary} {template : ChatTemplateEngine}

/-! ## The engine's runs -/

/-- What is done with an engine: a request is started, or a step is taken for it. -/
inductive EngineAct
  | start (requestId : String) (configError : Option String)
  | step (requestId : String) (s : EngineStep)

namespace MlcLlmEngine

/-- The engine after an action that did not throw. -/
def next (template : ChatTemplateEngine) (e : MlcLlmEngine lib) :
    EngineAct → Option (MlcLlmEngine lib)
  | .start requestId configError => some (e.initializeChatCompletion requestId configError)
  | .step requestId s =>
    match e.stepChatCompletion template requestId s with
    | .ok p => some p.1
    | .error _ => none

end MlcLlmEngine

/-- Texts are collected in a tool call segment only. -/
def OutputState.Tidy (o : OutputState) : Prop := o.toolCallTokens ≠ [] → o.mode = .toolCall

theorem readChoice_tidy {o : OutputState} (h : o.Tidy) (reason : Option FinishReason)
    (content : Text) : (o.readChoice lib template reason content).1.Tidy := by
  have hempty : ∀ m : OutputMode, OutputState.Tidy ⟨m, []⟩ := fun m hne => absurd rfl hne
  by_cases hbotc : content = template.botcToken
  · rw [hbotc, o.readChoice_botc]
    exact fun _ => rfl
  by_cases heotc : content = template.eotcToken
  · rw [heotc] at hbotc ⊢
    rw [o.readChoice_eotc reason hbotc]
    exact hempty _
  by_cases hmode : o.mode = .toolCall
  · rw [o.readChoice_inside reason hbotc heotc hmode]
    exact fun _ => hmode
  · -- Outside a tool call segment nothing is collected.
    have htokens : o.toolCallTokens = [] := by
      by_contra hne
      exact hmode (h hne)
    rw [o.readChoice_outside reason hbotc heotc hmode]
    split_ifs
    · exact fun hne => absurd htokens hne
    · exact fun hne => absurd htokens hne
    · exact h
    · exact h

namespace MlcLlmEngine

variable {e e' : MlcLlmEngine lib}

theorem readGroup_tidy {o : OutputState} (h : o.Tidy) (reasons : List (Option String))
    (idss : List (List ℤ)) (streamers : List lib.TextStreamer) :
    (readGroup template o reasons idss streamers).1.Tidy := by
  induction reasons generalizing o idss streamers with
  | nil => exact h
  | cons reason reasons ih =>
    cases idss with
    | nil => exact h
    | cons ids idss =>
      cases streamers with
      | nil => exact h
      | cons streamer streamers => exact ih (readChoice_tidy h _ _) idss streamers

/-- What one output can do: its responses are for its request, and the output mode is left as it is
or read from its group. -/
theorem readOutput_cases {d : StreamOutput} {response : List StreamResponse}
    (hread : e.readOutput template d = .ok (e', response)) :
    (∀ r ∈ response, r.id = d.requestId) ∧
      (e'.toOutputState = e.toOutputState ∨ ∃ streamers : List lib.TextStreamer, e'.toOutputState =
        (readGroup template e.toOutputState d.groupFinishReason d.groupDeltaTokenIds streamers).1) := by
  unfold readOutput at hread
  cases hlookup : e.requestMap.lookup d.requestId with
  | none =>
    rw [hlookup] at hread
    obtain ⟨rfl, rfl⟩ := Prod.mk.inj (Except.ok.inj hread)
    exact ⟨by simp, .inl rfl⟩
  | some streamers =>
    rw [hlookup] at hread
    cases husage : d.requestFinalUsageJsonStr with
    | some usage =>
      rw [husage] at hread
      obtain ⟨rfl, rfl⟩ := Prod.mk.inj (Except.ok.inj hread)
      exact ⟨by simp, .inl rfl⟩
    | none =>
      rw [husage] at hread
      dsimp only at hread
      split_ifs at hread
      · obtain ⟨rfl, rfl⟩ := Prod.mk.inj (Except.ok.inj hread)
        exact ⟨by simp, .inr ⟨streamers, rfl⟩⟩
      · obtain ⟨rfl, rfl⟩ := Prod.mk.inj (Except.ok.inj hread)
        exact ⟨by simp, .inr ⟨streamers, rfl⟩⟩

theorem readOutput_tidy (h : e.Tidy) {d : StreamOutput} {response : List StreamResponse}
    (hread : e.readOutput template d = .ok (e', response)) : e'.Tidy := by
  obtain ⟨-, hsame | ⟨streamers, hgroup⟩⟩ := readOutput_cases hread
  · unfold OutputState.Tidy
    rw [hsame]
    exact h
  · unfold OutputState.Tidy
    rw [hgroup]
    exact readGroup_tidy h _ _ _

theorem getResponse_tidy (h : e.Tidy) {ds : List StreamOutput} {responses : List StreamResponse}
    (hget : e.getResponseFromStreamOutput template ds = .ok (e', responses)) : e'.Tidy := by
  induction ds generalizing e responses with
  | nil =>
    obtain ⟨rfl, -⟩ := Prod.mk.inj (Except.ok.inj hget)
    exact h
  | cons d ds ih =>
    obtain ⟨⟨e₁, response⟩, hread, hget⟩ := Except.bind_eq_ok_iff.mp hget
    obtain ⟨⟨e₂, rest⟩, hrest, hget⟩ := Except.bind_eq_ok_iff.mp hget
    obtain ⟨rfl, -⟩ := Prod.mk.inj (Except.ok.inj hget)
    exact ih (readOutput_tidy h hread) hrest

/-- The responses do not change the output mode. -/
theorem putResponses_output {uuid : ℕ → String} {drawn drawn' : ℕ} {responses : List StreamResponse}
    (hput : e.putResponses uuid drawn responses = .ok (e', drawn')) :
    e'.toOutputState = e.toOutputState := by
  induction responses generalizing e drawn with
  | nil =>
    obtain ⟨rfl, -⟩ := Prod.mk.inj (Except.ok.inj hput)
    rfl
  | cons r responses ih =>
    rw [putResponses] at hput
    cases hchoices : r.choices with
    | nil =>
      rw [hchoices] at hput
      exact ih hput
    | cons choice rest =>
      rw [hchoices] at hput
      dsimp only at hput
      cases hresp : e.responseMap.lookup r.id with
      | none =>
        rw [hresp] at hput
        cases hput
      | some resp =>
        rw [hresp] at hput
        obtain ⟨⟨resp₁, drawn₁⟩, -, hput⟩ := Except.bind_eq_ok_iff.mp hput
        have hrest := ih hput
        exact hrest

theorem callBack_tidy (h : e.Tidy) {uuid : ℕ → String} {drawn drawn' : ℕ}
    {callbacks : List (List StreamOutput)}
    (hback : e.callBack template uuid drawn callbacks = .ok (e', drawn')) : e'.Tidy := by
  induction callbacks generalizing e drawn with
  | nil =>
    obtain ⟨rfl, -⟩ := Prod.mk.inj (Except.ok.inj hback)
    exact h
  | cons ds callbacks ih =>
    obtain ⟨⟨e₁, responses⟩, hget, hback⟩ := Except.bind_eq_ok_iff.mp hback
    obtain ⟨⟨e₂, drawn₂⟩, hput, hback⟩ := Except.bind_eq_ok_iff.mp hback
    have h₁ := getResponse_tidy h hget
    have h₂ : e₂.Tidy := by
      unfold OutputState.Tidy
      rw [putResponses_output hput]
      exact h₁
    exact ih h₂ hback

theorem next_tidy (h : e.Tidy) {a : EngineAct} (hnext : e.next template a = some e') : e'.Tidy := by
  cases a with
  | start requestId configError =>
    obtain rfl := Option.some.inj hnext
    unfold initializeChatCompletion
    cases configError with
    | none => exact h
    | some err => exact h
  | step requestId s =>
    unfold next at hnext
    dsimp only at hnext
    cases hstep : e.stepChatCompletion template requestId s with
    | error f =>
      rw [hstep] at hnext
      cases hnext
    | ok p =>
      rw [hstep] at hnext
      obtain rfl := Option.some.inj hnext
      obtain ⟨⟨e₁, drawn⟩, hback, hrest⟩ := Except.bind_eq_ok_iff.mp hstep
      have h₁ : e₁.Tidy := callBack_tidy
        (e := { e with responseMap := e.responseMap.insert requestId ⟨none, none⟩ }) h hback
      dsimp only at hrest
      split_ifs at hrest with herror
      · rw [← Except.ok.inj hrest]
        exact h₁
      · cases hresp : e₁.responseMap.lookup requestId with
        | none =>
          rw [hresp] at hrest
          cases hrest
        | some resp =>
          rw [hresp] at hrest
          dsimp only at hrest
          split_ifs at hrest
          · rw [← Except.ok.inj hrest]
            exact h₁
          · rw [← Except.ok.inj hrest]
            exact h₁

/-- On every engine, texts are collected in a tool call segment only. -/
theorem tidy_of_reach (h : Transition.Reach (next template) created e) : e.Tidy :=
  Transition.ReachVia.invariant (P := fun e => e.Tidy) (fun hne => absurd rfl hne)
    (fun _ _ _ _ htidy _ hnext => next_tidy htidy hnext) h

/-! ## What a request sees of the engine -/

/-- The view of the engine for a request. -/
def view (requestId : String) (e : MlcLlmEngine lib) :
    OutputState × Option (List lib.TextStreamer) × Option String :=
  (e.toOutputState, e.requestMap.lookup requestId, e.lastError)

/-- The view inside a step, with the response of the request. -/
def stepView (requestId : String) (e : MlcLlmEngine lib) :
    (OutputState × Option (List lib.TextStreamer) × Option String) × Option ResponseState :=
  (e.view requestId, e.responseMap.lookup requestId)

theorem stepView_eq_iff {requestId : String} :
    e.stepView requestId = e'.stepView requestId ↔
      e.toOutputState = e'.toOutputState ∧
      e.requestMap.lookup requestId = e'.requestMap.lookup requestId ∧
      e.lastError = e'.lastError ∧
      e.responseMap.lookup requestId = e'.responseMap.lookup requestId := by
  unfold stepView view
  simp only [Prod.mk.injEq, and_assoc]

variable {requestId : String}

/-- Engines with one view read an output of the request alike. -/
theorem readOutput_congr (h : e.stepView requestId = e'.stepView requestId) {d : StreamOutput}
    (hd : d.requestId = requestId) :
    (e.readOutput template d).map (fun p => (p.1.stepView requestId, p.2)) =
      (e'.readOutput template d).map fun p => (p.1.stepView requestId, p.2) := by
  obtain ⟨houtput, hstreamers, herror, hresp⟩ := stepView_eq_iff.mp h
  unfold readOutput
  rw [hd, ← hstreamers, ← houtput, ← herror]
  cases e.requestMap.lookup requestId with
  | none => simp [Except.map, h]
  | some streamers =>
    cases d.requestFinalUsageJsonStr with
    | some usage =>
      simp [Except.map, stepView, view, houtput, herror, hresp]
    | none =>
      dsimp only
      split_ifs
      · rfl
      · simp [Except.map, stepView, view, herror, hresp]
      · simp [Except.map, stepView, view, herror, hresp]

/-- The responses for outputs of a request are for the request. -/
theorem getResponse_ids {ds : List StreamOutput} (hds : ∀ d ∈ ds, d.requestId = requestId)
    {responses : List StreamResponse}
    (hget : e.getResponseFromStreamOutput template ds = .ok (e', responses)) :
    ∀ r ∈ responses, r.id = requestId := by
  induction ds generalizing e responses with
  | nil =>
    obtain ⟨-, rfl⟩ := Prod.mk.inj (Except.ok.inj hget)
    simp
  | cons d ds ih =>
    obtain ⟨⟨e₁, response⟩, hread, hget⟩ := Except.bind_eq_ok_iff.mp hget
    obtain ⟨⟨e₂, rest⟩, hrest, hget⟩ := Except.bind_eq_ok_iff.mp hget
    obtain ⟨rfl, rfl⟩ := Prod.mk.inj (Except.ok.inj hget)
    intro r hr
    rcases List.mem_append.mp hr with hr | hr
    · rw [(readOutput_cases hread).1 r hr, hds d List.mem_cons_self]
    · exact ih (fun d hd => hds d (List.mem_cons_of_mem _ hd)) hrest r hr

theorem getResponse_congr (h : e.stepView requestId = e'.stepView requestId)
    {ds : List StreamOutput} (hds : ∀ d ∈ ds, d.requestId = requestId) :
    (e.getResponseFromStreamOutput template ds).map (fun p => (p.1.stepView requestId, p.2)) =
      (e'.getResponseFromStreamOutput template ds).map
        fun p => (p.1.stepView requestId, p.2) := by
  induction ds generalizing e e' with
  | nil => simp [getResponseFromStreamOutput, Except.map, h]
  | cons d ds ih =>
    refine Except.map_bind_congr (readOutput_congr h (hds d List.mem_cons_self)) ?_
    rintro ⟨e₁, response⟩ ⟨e₁', response'⟩ - - heq
    obtain ⟨hview, rfl⟩ := Prod.mk.inj heq
    refine Except.map_bind_congr (ih hview fun d hd => hds d (List.mem_cons_of_mem _ hd)) ?_
    rintro ⟨e₂, rest⟩ ⟨e₂', rest'⟩ - - heq'
    obtain ⟨hview', rfl⟩ := Prod.mk.inj heq'
    exact congrArg (fun w => Except.ok (w, response ++ rest)) hview'

theorem putResponses_congr (h : e.stepView requestId = e'.stepView requestId)
    (uuid : ℕ → String) (drawn : ℕ) {responses : List StreamResponse}
    (hids : ∀ r ∈ responses, r.id = requestId) :
    (e.putResponses uuid drawn responses).map (fun p => (p.1.stepView requestId, p.2)) =
      (e'.putResponses uuid drawn responses).map fun p => (p.1.stepView requestId, p.2) := by
  induction responses generalizing e e' drawn with
  | nil => simp [putResponses, Except.map, h]
  | cons r responses ih =>
    have hrest := fun r hr => hids r (List.mem_cons_of_mem _ hr)
    obtain ⟨houtput, hstreamers, herror, hresp⟩ := stepView_eq_iff.mp h
    rw [putResponses, putResponses]
    cases r.choices with
    | nil => exact ih h drawn hrest
    | cons choice choices =>
      dsimp only
      rw [hids r List.mem_cons_self, ← hresp]
      cases e.responseMap.lookup requestId with
      | none => rfl
      | some resp =>
        dsimp only
        rw [← congrArg OutputState.mode houtput]
        cases resp.putChoice lib e.mode uuid drawn choice with
        | error f => rfl
        | ok p =>
          have hview : stepView requestId
              { e with responseMap := e.responseMap.insert requestId p.1 } =
              stepView requestId
                { e' with responseMap := e'.responseMap.insert requestId p.1 } := by
            refine stepView_eq_iff.mpr ⟨houtput, hstreamers, herror, ?_⟩
            rw [AList.lookup_insert, AList.lookup_insert]
          exact ih hview p.2 hrest

theorem callBack_congr (h : e.stepView requestId = e'.stepView requestId)
    (uuid : ℕ → String) (drawn : ℕ) {callbacks : List (List StreamOutput)}
    (hds : ∀ d ∈ callbacks.flatten, d.requestId = requestId) :
    (e.callBack template uuid drawn callbacks).map (fun p => (p.1.stepView requestId, p.2)) =
      (e'.callBack template uuid drawn callbacks).map fun p => (p.1.stepView requestId, p.2) := by
  induction callbacks generalizing e e' drawn with
  | nil => simp [callBack, Except.map, h]
  | cons ds callbacks ih =>
    rw [List.flatten_cons] at hds
    have hfirst := fun d hd => hds d (List.mem_append_left _ hd)
    refine Except.map_bind_congr (getResponse_congr h hfirst) ?_
    rintro ⟨e₁, responses⟩ ⟨e₁', responses'⟩ hget - heq
    obtain ⟨hview, rfl⟩ := Prod.mk.inj heq
    refine Except.map_bind_congr
      (putResponses_congr hview uuid drawn (getResponse_ids hfirst hget)) ?_
    rintro ⟨e₂, drawn₂⟩ ⟨e₂', drawn₂'⟩ - - heq'
    obtain ⟨hview', rfl⟩ := Prod.mk.inj heq'
    exact ih hview' drawn₂ fun d hd => hds d (List.mem_append_right _ hd)

theorem stepChatCompletion_congr (h : e.view requestId = e'.view requestId) {s : EngineStep}
    (hs : ∀ d ∈ s.callbacks.flatten, d.requestId = requestId) :
    (e.stepChatCompletion template requestId s).map (fun p => (p.1.view requestId, p.2)) =
      (e'.stepChatCompletion template requestId s).map fun p => (p.1.view requestId, p.2) := by
  have hstart : stepView requestId
      { e with responseMap := e.responseMap.insert requestId ⟨none, none⟩ } =
      stepView requestId
        { e' with responseMap := e'.responseMap.insert requestId ⟨none, none⟩ } := by
    unfold stepView
    rw [AList.lookup_insert, AList.lookup_insert]
    exact congrArg (·, some _) h
  refine Except.map_bind_congr (callBack_congr hstart s.uuid 0 hs) ?_
  rintro ⟨e₁, drawn⟩ ⟨e₁', drawn'⟩ - - heq
  obtain ⟨hview, hresp⟩ : e₁.view requestId = e₁'.view requestId ∧
      e₁.responseMap.lookup requestId = e₁'.responseMap.lookup requestId :=
    Prod.mk.inj (Prod.mk.inj heq).1
  have herror : e₁.lastError.isSome = e₁'.lastError.isSome :=
    congrArg (fun w => w.2.2.isSome) hview
  dsimp only
  rw [← herror, ← hresp]
  by_cases hsome : e₁.lastError.isSome = true
  · rw [if_pos hsome, if_pos hsome]
    exact congrArg (fun w => Except.ok (w, none)) hview
  · rw [if_neg hsome, if_neg hsome]
    cases e₁.responseMap.lookup requestId with
    | none => rfl
    | some resp =>
      dsimp only
      by_cases hnone : resp.message.isNone = true
      · rw [if_pos hnone, if_pos hnone]
        exact congrArg (fun w => Except.ok (w, none)) hview
      · rw [if_neg hnone, if_neg hnone]
        exact congrArg (fun w => Except.ok (w, some resp)) hview

end MlcLlmEngine

/-! ## The deltas of a request -/

/-- The outputs of a step are those of the request. -/
def EngineStep.For (requestId : String) (s : EngineStep) : Prop :=
  ∀ d ∈ s.callbacks.flatten, d.requestId = requestId

namespace Infer

variable {e e' : MlcLlmEngine lib} {requestId : String} {ignoreReasoningMessages : Bool}

theorem iterate_congr (h : e.view requestId = e'.view requestId) {s : EngineStep}
    (hs : s.For requestId) :
    (iterate template ignoreReasoningMessages e requestId s).map
        (fun p => (p.1.view requestId, p.2)) =
      (iterate template ignoreReasoningMessages e' requestId s).map
        fun p => (p.1.view requestId, p.2) := by
  refine Except.map_bind_congr (MlcLlmEngine.stepChatCompletion_congr h hs) ?_
  rintro ⟨e₁, stepOutput⟩ ⟨e₁', stepOutput'⟩ - - heq
  obtain ⟨hview, rfl⟩ := Prod.mk.inj heq
  have herror : e₁.lastError = e₁'.lastError := congrArg (fun w => w.2.2) hview
  have hwith : ∀ i : Iteration, (Except.ok (e₁, i) : Except Fault _).map
      (fun p => (MlcLlmEngine.view requestId p.1, p.2)) =
      (Except.ok (e₁', i) : Except Fault _).map
        fun p => (MlcLlmEngine.view requestId p.1, p.2) :=
    fun i => congrArg (fun w => Except.ok (w, i)) hview
  dsimp only
  rw [← herror]
  cases e₁.lastError with
  | some err => exact hwith _
  | none =>
    cases stepOutput with
    | none => exact hwith _
    | some response =>
      cases hmessage : response.message with
      | none => simp only [hmessage, Except.map]
      | some message =>
        simp only [hmessage]
        by_cases hfinish : response.finishReason.isSome = true
        · rw [if_pos hfinish, if_pos hfinish]
          exact hwith _
        · rw [if_neg hfinish, if_neg hfinish]
          cases dismissDelta ignoreReasoningMessages message with
          | error f => rfl
          | ok dismissed =>
            cases dismissed with
            | true => exact hwith _
            | false => exact hwith _

namespace InferCall

variable {c c' : InferCall lib}

/-- What is seen of a call: the view of its engine, and the packets. -/
def view (c : InferCall lib) : (OutputState × Option (List lib.TextStreamer) × Option String) ×
    String × ℕ × List Sent × Bool :=
  (c.engine.view c.requestId, c.requestId, c.sequence, c.sent, c.running)

theorem advance_congr (h : c.view = c'.view) {s : EngineStep} (hs : s.For c.requestId) :
    (c.advance template ignoreReasoningMessages s).map view =
      (c'.advance template ignoreReasoningMessages s).map view := by
  obtain ⟨e, id, sequence, sent, running⟩ := c
  obtain ⟨e', id', sequence', sent', running'⟩ := c'
  unfold view at h
  simp only [Prod.mk.injEq] at h
  obtain ⟨hview, rfl, rfl, rfl, rfl⟩ := h
  unfold advance
  cases running with
  | false => exact congrArg (fun w => Except.ok (w, id, sequence, sent, false)) hview
  | true =>
    rw [if_pos rfl, if_pos rfl]
    refine Except.map_bind_congr (iterate_congr hview hs) ?_
    rintro ⟨e₁, i⟩ ⟨e₁', i'⟩ - - heq
    obtain ⟨hview', rfl⟩ := Prod.mk.inj heq
    cases i with
    | again => exact congrArg (fun w => Except.ok (w, id, sequence, sent, true)) hview'
    | error reason => exact congrArg (fun w => Except.ok (w, id, _, _, _)) hview'
    | output message finishReason =>
      exact congrArg (fun w => Except.ok (w, id, _, _, _)) hview'

/-- A step does not change the request of a call. -/
theorem advance_requestId {s : EngineStep} {c' : InferCall lib}
    (h : c.advance template ignoreReasoningMessages s = .ok c') : c'.requestId = c.requestId := by
  unfold advance at h
  split_ifs at h
  · obtain ⟨⟨e, i⟩, -, h⟩ := Except.bind_eq_ok_iff.mp h
    cases i with
    | again => rw [← Except.ok.inj h]
    | error reason => rw [← Except.ok.inj h]
    | output message finishReason => rw [← Except.ok.inj h]
  · rw [← Except.ok.inj h]

variable (template) (ignoreReasoningMessages) in
theorem serve_congr (h : c.view = c'.view) {steps : List EngineStep}
    (hsteps : ∀ s ∈ steps, s.For c.requestId) :
    (c.serve template ignoreReasoningMessages steps).map view =
      (c'.serve template ignoreReasoningMessages steps).map view := by
  induction steps generalizing c c' with
  | nil => exact congrArg Except.ok h
  | cons s steps ih =>
    refine Except.map_bind_congr (advance_congr h (hsteps s List.mem_cons_self)) ?_
    intro c₁ c₁' hadvance _ hview
    refine ih hview fun s hs => ?_
    rw [advance_requestId hadvance]
    exact hsteps s (List.mem_cons_of_mem _ hs)

end InferCall

end Infer

/-- The packets of a request for the outputs of steps of the engine, and whether its call still
runs. -/
def deltas (template : ChatTemplateEngine) (ignoreReasoningMessages : Bool) (e : MlcLlmEngine lib)
    (requestId : String) (steps : List EngineStep) : Except Fault (List Sent × Bool) :=
  ((InferCall.start e requestId none).serve template ignoreReasoningMessages steps).map
    fun c => (c.sent, c.running)

/-- A request on an engine has the deltas that it has on a fresh one, for every sequence of
outputs. -/
def Independent (template : ChatTemplateEngine) (ignoreReasoningMessages : Bool)
    (e : MlcLlmEngine lib) (requestId : String) : Prop :=
  ∀ steps : List EngineStep, (∀ s ∈ steps, s.For requestId) →
    deltas template ignoreReasoningMessages e requestId steps =
      deltas template ignoreReasoningMessages (MlcLlmEngine.created : MlcLlmEngine lib) requestId
        steps

section Independent

variable {e : MlcLlmEngine lib} {requestId : String} {ignoreReasoningMessages : Bool}

/-- With one view at the start, all deltas are the same. -/
theorem deltas_congr {e' : MlcLlmEngine lib} (houtput : e.toOutputState = e'.toOutputState)
    (herror : e.lastError = e'.lastError) {steps : List EngineStep}
    (hsteps : ∀ s ∈ steps, s.For requestId) :
    deltas template ignoreReasoningMessages e requestId steps =
      deltas template ignoreReasoningMessages e' requestId steps := by
  have hview : (InferCall.start e requestId none).view =
      (InferCall.start e' requestId none).view := by
    unfold InferCall.view InferCall.start MlcLlmEngine.view MlcLlmEngine.initializeChatCompletion
    simp only [AList.lookup_insert, houtput, herror]
  have hserve := Infer.InferCall.serve_congr template ignoreReasoningMessages hview hsteps
  have hmap : ∀ x : Except Fault (InferCall lib),
      x.map (fun c => (c.sent, c.running)) =
        (x.map InferCall.view).map fun w => (w.2.2.2.1, w.2.2.2.2) := by
    intro x
    cases x <;> rfl
  unfold deltas
  rw [hmap, hserve, ← hmap]

/-- A step without outputs shows the error of an engine that has one. -/
theorem deltas_quiet (uuid : ℕ → String) :
    deltas template ignoreReasoningMessages e requestId [⟨[], uuid⟩] =
      match e.lastError with
      | some err => .ok ([.error 0 err], false)
      | none => .ok ([], true) := by
  obtain ⟨o, requests, responses, error⟩ := e
  cases error with
  | some err => rfl
  | none =>
    have hresp : (responses.insert requestId ⟨none, none⟩).lookup requestId =
        some (⟨none, none⟩ : ResponseState) := AList.lookup_insert _
    unfold deltas InferCall.serve InferCall.advance Infer.iterate
    simp only [InferCall.start, MlcLlmEngine.initializeChatCompletion, if_true,
      MlcLlmEngine.stepChatCompletion, MlcLlmEngine.callBack, Except.ok_bind, hresp]
    rfl

/-- A text that is no marker. -/
structure Plain (template : ChatTemplateEngine) (text : Text) : Prop where
  nonempty : text ≠ []
  botc : template.isBotcToken text = false
  eotc : template.isEotcToken text = false
  think : text ≠ thinkToken
  endThink : text ≠ endThinkToken

/-- The step with one output, whose tokens are given. -/
def textStep (requestId : String) (ids : List ℤ) : EngineStep :=
  ⟨[[.single requestId none ids]], fun _ => ""⟩

variable (lib) in
/-- The choice for a text that is no marker. -/
theorem readChoice_plain {o : OutputState} {text : Text} (h : Plain template text) :
    (o.readChoice lib template none text).2 =
      ⟨none, if o.mode = .toolCall then none else some text⟩ ∧
    (o.readChoice lib template none text).1.mode = o.mode := by
  have hbotc : text ≠ template.botcToken := of_decide_eq_false h.botc
  have heotc : text ≠ template.eotcToken := of_decide_eq_false h.eotc
  by_cases hmode : o.mode = .toolCall
  · rw [o.readChoice_inside none hbotc heotc hmode, if_pos hmode]
    exact ⟨rfl, rfl⟩
  · rw [o.readChoice_outside none hbotc heotc hmode, if_neg h.think, if_neg h.endThink,
      if_neg h.nonempty, if_neg hmode]
    exact ⟨rfl, rfl⟩

/-- The response of a step with one text that is no marker. -/
theorem callBack_plain {v : Reading lib} (hreads : e.Reads requestId v) (uuid : ℕ → String)
    (hresp : e.responseMap.lookup requestId = some ⟨none, none⟩) {ids : List ℤ}
    (h : Plain template (lib.put v.streamer ids).2) :
    ∃ e' drawn, e.callBack template uuid 0 [[.single requestId none ids]] = .ok (e', drawn) ∧
      e'.lastError = none ∧ e'.responseMap.lookup requestId = some
        (if v.output.mode = .toolCall then ⟨none, none⟩
        else ⟨some ⟨"assistant", some (lib.put v.streamer ids).2,
          decide (v.output.mode = .reasoning), []⟩, none⟩) := by
  obtain ⟨e₁, hread, hreads₁, hmap⟩ :=
    MlcLlmEngine.readOutput_single template hreads none ids
  obtain ⟨hchoice, hmode⟩ := readChoice_plain lib (o := v.output) h
  have hchoice' : (v.read template none ids).2 =
      ⟨none, if v.output.mode = .toolCall then none else some (lib.put v.streamer ids).2⟩ := hchoice
  have hmode' : e₁.mode = v.output.mode := by
    rw [congrArg OutputState.mode hreads₁.output]
    exact hmode
  rw [← hmap] at hresp
  rw [hchoice'] at hread
  rw [MlcLlmEngine.callBack, MlcLlmEngine.getResponseFromStreamOutput, hread]
  simp only [MlcLlmEngine.getResponseFromStreamOutput, Except.ok_bind, pure, Except.pure,
    List.append_nil]
  by_cases htool : v.output.mode = .toolCall
  · rw [if_pos htool, if_pos htool]
    exact ⟨e₁, 0, rfl, hreads₁.lastError, hresp⟩
  · rw [if_neg htool, if_neg htool]
    simp only [MlcLlmEngine.responseOf, Option.isSome_some, Bool.true_or, if_true,
      MlcLlmEngine.putResponses, hresp, ResponseState.putChoice, hmode', Except.ok_bind]
    exact ⟨_, 0, rfl, hreads₁.lastError, AList.lookup_insert _⟩

/-- The deltas of a request for one text that is no marker. They tell the output modes apart. -/
theorem deltas_plain (herror : e.lastError = none) {ids : List ℤ}
    (h : Plain template (lib.put lib.textStreamer ids).2) :
    deltas template ignoreReasoningMessages e requestId [textStep requestId ids] =
      .ok (if e.mode = .toolCall ∨ (ignoreReasoningMessages = true ∧ e.mode = .reasoning) then []
        else [.delta 0 false ⟨"assistant", some (lib.put lib.textStreamer ids).2,
          decide (e.mode = .reasoning), []⟩ none], true) := by
  have hreads : MlcLlmEngine.Reads { e with
      requestMap := e.requestMap.insert requestId [lib.textStreamer]
      responseMap := e.responseMap.insert requestId ⟨none, none⟩ } requestId
      ⟨lib.textStreamer, e.toOutputState⟩ := ⟨AList.lookup_insert _, rfl, herror⟩
  obtain ⟨e', drawn, hback, herror', hresp⟩ :=
    callBack_plain hreads (fun _ => "") (AList.lookup_insert _) h
  have hiterate := Infer.iterate_of_callBack template ignoreReasoningMessages
    (s := textStep requestId ids) (e := e.initializeChatCompletion requestId none) hback herror' hresp
  unfold deltas InferCall.serve InferCall.serve InferCall.advance InferCall.start
  rw [if_pos rfl, hiterate]
  by_cases htool : e.mode = .toolCall
  · rw [if_pos htool, if_pos (.inl htool)]
    rfl
  · rw [if_neg htool]
    dsimp only
    rw [if_neg (by simp), Infer.dismissDelta]
    have hcontent : decide ((lib.put lib.textStreamer ids).2 = []) = false :=
      decide_eq_false h.nonempty
    by_cases hreason : ignoreReasoningMessages = true ∧ e.mode = .reasoning
    · rw [if_pos (.inr hreason), hreason.1]
      simp [hreason.2, Except.map, pure, Except.pure]
    · rw [if_neg (by simp [htool, hreason])]
      have hdismiss : (ignoreReasoningMessages && decide (e.mode = .reasoning)) = false := by
        simpa using hreason
      simp [hdismiss, hcontent, Except.map, pure, Except.pure]

end Independent

/-- The tokenizer has a text that is no marker, at the start of a request. -/
def Speaks (lib : EngineLibrary) (template : ChatTemplateEngine) : Prop :=
  ∃ ids, Plain template (lib.put lib.textStreamer ids).2

/-- Texts are collected in a tool call segment only, so the output mode `text` has none. -/
theorem output_of_text {e : MlcLlmEngine lib} (htidy : e.Tidy) (hmode : e.mode = .text) :
    e.toOutputState = ⟨.text, []⟩ := by
  have htokens : e.toolCallTokens = [] := by
    by_contra hne
    have htool := htidy hne
    rw [hmode] at htool
    cases htool
  rw [← hmode, ← htokens]

/-- An error shows in a step without outputs, and another output mode in a text that is no
marker. -/
theorem independent_iff (hspeaks : Speaks lib template) {ignoreReasoningMessages : Bool}
    {e : MlcLlmEngine lib} (htidy : e.Tidy) {requestId : String} :
    Independent template ignoreReasoningMessages e requestId ↔
      e.mode = .text ∧ e.lastError = none := by
  constructor
  · intro h
    have hquiet := h [⟨[], fun _ => ""⟩] (by simp [EngineStep.For])
    rw [deltas_quiet, deltas_quiet] at hquiet
    have herror : e.lastError = none := by
      cases herror : e.lastError with
      | none => rfl
      | some err =>
        rw [herror] at hquiet
        cases hquiet
    obtain ⟨ids, hplain⟩ := hspeaks
    have htext := h [textStep requestId ids]
      (by simp [EngineStep.For, textStep, StreamOutput.single])
    rw [deltas_plain herror hplain, deltas_plain rfl hplain] at htext
    refine ⟨?_, herror⟩
    cases hmode : e.mode with
    | text => rfl
    | toolCall =>
      rw [hmode] at htext
      simp [MlcLlmEngine.created] at htext
    | reasoning =>
      -- The delta is dismissed, or it has the flag of a reasoning.
      rw [hmode] at htext
      cases ignoreReasoningMessages <;> simp [MlcLlmEngine.created] at htext
  · intro h steps hsteps
    exact deltas_congr (output_of_text htidy h.1) h.2 hsteps

theorem speaks_byteLibrary : Speaks byteLibrary angleTemplate :=
  ⟨[0x61], by decide, by decide, by decide, by decide, by decide⟩

/-- A request that the engine stops inside a tool call segment. -/
def stoppedInside : List EngineAct :=
  [.start "a" none, .step "a" ⟨[[.single "a" none [0x3C]]], fun _ => ""⟩,
    .step "a" ⟨[[.single "a" (some "stop") [0x61]]], fun _ => ""⟩]

end Ailoy
