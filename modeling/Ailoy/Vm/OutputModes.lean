import Ailoy.Vm.EngineHistory

/-!
# The output modes as a transducer

What a client receives of a generation, without the sequence numbers and the ids of tool calls, is a
list of `Delta`s. The reference is a list of `Segment`s: a text, a think segment or a tool call
segment, each with the deltas that it stands for. The engine reads the chunks one by one, and `hear`
is that transducer: the mode machine, and what the callback makes of a choice in the mode behind it.
`hear_segments` is that the two agree, by induction over the segments, and `serve_hear` that the
loops of `infer` send what is heard when each step has one output (`output_modes_refine`).
-/

namespace Ailoy

open Infer (InferCall Sent)

variable {lib : EngineLibrary} {template : ChatTemplateEngine}

/-! ## What is delivered -/

/-- A delta as a client sees it: a text, or the functions of tool calls. -/
inductive Delta
  | text (content : Text) (reasoning : Bool)
  | calls (functions : List Json)

namespace Delta

/-- With `ignore_reasoning_messages` a text that is reasoning is not delivered. -/
def isShown (ignoreReasoningMessages : Bool) : Delta → Bool
  | text _ reasoning => !(ignoreReasoningMessages && reasoning)
  | calls _ => true

/-- A packet brings a delta. The calls are numbered from zero, and each has an id of its own. -/
def SentAs (packet : Sent) : Delta → Prop
  | text content reasoning =>
    ∃ sequence, packet = .delta sequence false ⟨"assistant", some content, reasoning, []⟩ none
  | calls functions => ∃ (sequence : ℕ) (uuid : ℕ → String),
      packet = .delta sequence false ⟨"assistant", none, false, functions.zipIdx.map fun p =>
        ⟨p.2, "call_" ++ uuid p.2, "function", p.1⟩⟩ (some "tool_calls")

end Delta

/-- The functions of a tool call segment: the elements of an array, or the whole value. -/
def Json.functions : Json → List Json
  | .array js => js
  | j => [j]

/-! ## The reference -/

namespace ChatTemplateEngine

/-- The markers of segments. -/
def IsMarker (t : ChatTemplateEngine) (chunk : Text) : Prop :=
  chunk = t.botcToken ∨ chunk = t.eotcToken ∨ chunk = thinkToken ∨ chunk = endThinkToken

instance (t : ChatTemplateEngine) (chunk : Text) : Decidable (t.IsMarker chunk) :=
  inferInstanceAs (Decidable (_ ∨ _))

/-- The markers of a tool call segment differ from each other and from the think markers. -/
structure Distinct (t : ChatTemplateEngine) : Prop where
  tool : t.botcToken ≠ t.eotcToken
  botc_think : t.botcToken ≠ thinkToken
  botc_endThink : t.botcToken ≠ endThinkToken
  eotc_think : t.eotcToken ≠ thinkToken
  eotc_endThink : t.eotcToken ≠ endThinkToken

end ChatTemplateEngine

/-- A chunk outside of all segments, or a closed segment with its chunks. A think segment has no
marker inside, and a tool call segment has no marker of its own. -/
inductive Segment (template : ChatTemplateEngine)
  | text (chunk : Text) (outside : ¬ template.IsMarker chunk)
  | think (chunks : List Text) (inside : ∀ c ∈ chunks, ¬ template.IsMarker c)
  | tool (chunks : List Text)
      (inside : ∀ c ∈ chunks, c ≠ template.botcToken ∧ c ≠ template.eotcToken)

namespace Segment

/-- The chunks of a segment, with its markers. -/
def chunks : Segment template → List Text
  | text chunk _ => [chunk]
  | think chunks _ => thinkToken :: (chunks ++ [endThinkToken])
  | tool chunks _ => template.botcToken :: (chunks ++ [template.eotcToken])

/-- The delta of a chunk that is a text. An empty one has none. -/
def textDeltas (reasoning : Bool) (chunk : Text) : List Delta :=
  if chunk = [] then [] else [.text chunk reasoning]

/-- The deltas of a segment. -/
def deltas (lib : EngineLibrary) : Segment template → List Delta
  | text chunk _ => textDeltas false chunk
  | think chunks _ => chunks.flatMap (textDeltas true)
  | tool chunks _ =>
    match lib.parse (SplitText.trim (SplitText.join [] chunks)) with
    | some j => [.calls j.functions]
    | none => []

end Segment

/-! ## The engine as a transducer -/

/-- What the callback makes of a choice, in the output mode behind the chunk. -/
def Choice.deltas (lib : EngineLibrary) (mode : OutputMode) (choice : Choice) : List Delta :=
  match choice.finishReason, choice.content with
  | none, some text => [.text text (mode = .reasoning)]
  | some .toolCalls, some text =>
    match lib.parse text with
    | some j => [.calls j.functions]
    | none => []
  | _, _ => []

namespace OutputState

/-- The output state behind a chunk without a finish reason, and the deltas of the chunk. -/
def hearChunk (lib : EngineLibrary) (template : ChatTemplateEngine) (o : OutputState)
    (chunk : Text) : OutputState × List Delta :=
  let (o, choice) := o.readChoice lib template none chunk
  (o, choice.deltas lib o.mode)

/-- The output state behind chunks, and their deltas. -/
def hear (lib : EngineLibrary) (template : ChatTemplateEngine) (o : OutputState) :
    List Text → OutputState × List Delta
  | [] => (o, [])
  | chunk :: chunks =>
    let (o, deltas) := o.hearChunk lib template chunk
    let (o, rest) := hear lib template o chunks
    (o, deltas ++ rest)

theorem hear_append (o : OutputState) (chunks chunks' : List Text) :
    o.hear lib template (chunks ++ chunks') =
      (((o.hear lib template chunks).1.hear lib template chunks').1,
        (o.hear lib template chunks).2 ++
          ((o.hear lib template chunks).1.hear lib template chunks').2) := by
  induction chunks generalizing o with
  | nil => rfl
  | cons chunk chunks ih =>
    rw [List.cons_append, hear, hear]
    dsimp only
    rw [ih, List.append_assoc]

/-- A chunk that is no marker is collected in a tool call segment, and a text outside of one. -/
theorem readChoice_unmarked (o : OutputState) (reason : Option FinishReason) {chunk : Text}
    (h : ¬ template.IsMarker chunk) : o.readChoice lib template reason chunk =
      if o.mode = .toolCall then
        ({ o with toolCallTokens := o.toolCallTokens ++ [chunk] }, ⟨reason, none⟩)
      else (o, ⟨reason, if chunk = [] then none else some chunk⟩) := by
  obtain ⟨hbotc, heotc, hthink, hend⟩ : chunk ≠ template.botcToken ∧ chunk ≠ template.eotcToken ∧
      chunk ≠ thinkToken ∧ chunk ≠ endThinkToken := by
    unfold ChatTemplateEngine.IsMarker at h
    simpa only [not_or] using h
  by_cases hmode : o.mode = .toolCall
  · rw [o.readChoice_inside reason hbotc heotc hmode, if_pos hmode]
  · rw [o.readChoice_outside reason hbotc heotc hmode, if_neg hthink, if_neg hend, if_neg hmode]

/-- Outside of a tool call segment a chunk that is no marker is a text. -/
theorem hearChunk_plain {o : OutputState} (hmode : o.mode ≠ .toolCall) {chunk : Text}
    (h : ¬ template.IsMarker chunk) : o.hearChunk lib template chunk =
      (o, Segment.textDeltas (o.mode = .reasoning) chunk) := by
  unfold hearChunk Segment.textDeltas
  rw [readChoice_unmarked o none h, if_neg hmode]
  by_cases hempty : chunk = []
  · rw [if_pos hempty, if_pos hempty]
    rfl
  · rw [if_neg hempty, if_neg hempty]
    rfl

/-- Chunks that are no markers leave the output mode alone. -/
theorem hear_plain {o : OutputState} (hmode : o.mode ≠ .toolCall) {chunks : List Text}
    (h : ∀ c ∈ chunks, ¬ template.IsMarker c) : o.hear lib template chunks =
      (o, chunks.flatMap (Segment.textDeltas (o.mode = .reasoning))) := by
  induction chunks with
  | nil => rfl
  | cons chunk chunks ih =>
    rw [hear, hearChunk_plain hmode (h chunk List.mem_cons_self)]
    dsimp only
    rw [ih fun c hc => h c (List.mem_cons_of_mem _ hc), List.flatMap_cons]

/-- A think marker sets the output mode, unless a tool call segment is open. -/
theorem hearChunk_think (hmarkers : template.Distinct) {o : OutputState}
    (hmode : o.mode ≠ .toolCall) :
    o.hearChunk lib template thinkToken = ({ o with mode := .reasoning }, []) ∧
      o.hearChunk lib template endThinkToken = ({ o with mode := .text }, []) := by
  unfold hearChunk
  constructor
  · rw [o.readChoice_outside none hmarkers.botc_think.symm hmarkers.eotc_think.symm hmode,
      if_pos rfl]
    rfl
  · rw [o.readChoice_outside none hmarkers.botc_endThink.symm hmarkers.eotc_endThink.symm hmode,
      if_neg (by decide), if_pos rfl]
    rfl

/-- A tool call segment collects its chunks. -/
theorem hear_inside {tokens chunks : List Text}
    (h : ∀ c ∈ chunks, c ≠ template.botcToken ∧ c ≠ template.eotcToken) :
    (⟨.toolCall, tokens⟩ : OutputState).hear lib template chunks =
      (⟨.toolCall, tokens ++ chunks⟩, []) := by
  induction chunks generalizing tokens with
  | nil => rw [hear, List.append_nil]
  | cons chunk chunks ih =>
    obtain ⟨hbotc, heotc⟩ := h chunk List.mem_cons_self
    have hchunk : (⟨.toolCall, tokens⟩ : OutputState).hearChunk lib template chunk =
        (⟨.toolCall, tokens ++ [chunk]⟩, []) := by
      unfold hearChunk
      rw [readChoice_inside _ none hbotc heotc rfl]
      rfl
    rw [hear, hchunk]
    dsimp only
    rw [ih fun c hc => h c (List.mem_cons_of_mem _ hc), List.append_assoc]
    rfl

/-- The marker that opens a tool call segment. -/
theorem hearChunk_botc (o : OutputState) :
    o.hearChunk lib template template.botcToken = ({ o with mode := .toolCall }, []) := by
  unfold hearChunk
  rw [o.readChoice_botc]
  rfl

/-- The marker that closes a tool call segment, with a valid JSON text or without one. -/
theorem hearChunk_eotc (hmarkers : template.Distinct) (o : OutputState) :
    o.hearChunk lib template template.eotcToken = (⟨.text, []⟩,
      match lib.parse (SplitText.trim (SplitText.join [] o.toolCallTokens)) with
      | some j => [.calls j.functions]
      | none => []) := by
  unfold hearChunk
  rw [o.readChoice_eotc none hmarkers.tool.symm]
  unfold ChatTemplateEngine.getJsonStrIfValid
  dsimp only
  cases hparse : lib.parse (SplitText.trim (SplitText.join [] o.toolCallTokens)) with
  | none => rfl
  | some j =>
    simp only [Option.isSome_some, if_true, Option.elim_some, Choice.deltas, hparse]

/-- The engine hears a segment as the reference reads it, and is ready for the next one. -/
theorem hear_segment (hmarkers : template.Distinct) (seg : Segment template) :
    (⟨.text, []⟩ : OutputState).hear lib template seg.chunks = (⟨.text, []⟩, seg.deltas lib) := by
  cases seg with
  | text chunk outside =>
    rw [Segment.chunks, hear_plain (by decide) (by simpa using outside)]
    simp [Segment.deltas]
  | think chunks inside =>
    rw [Segment.chunks, hear, (hearChunk_think hmarkers (by decide)).1]
    dsimp only
    rw [hear_append, hear_plain (by decide) inside]
    dsimp only
    rw [hear, (hearChunk_think hmarkers (by decide)).2]
    simp [hear, Segment.deltas]
  | tool chunks inside =>
    rw [Segment.chunks, hear, hearChunk_botc]
    dsimp only
    rw [hear_append, hear_inside inside]
    dsimp only
    rw [hear, hearChunk_eotc hmarkers]
    simp [hear, Segment.deltas]

/-- The engine hears the segments as the reference reads them. -/
theorem hear_segments (hmarkers : template.Distinct) (segments : List (Segment template)) :
    (⟨.text, []⟩ : OutputState).hear lib template (segments.flatMap Segment.chunks) =
      (⟨.text, []⟩, segments.flatMap (Segment.deltas lib)) := by
  induction segments with
  | nil => rfl
  | cons seg segments ih =>
    rw [List.flatMap_cons, hear_append, hear_segment hmarkers]
    dsimp only
    rw [ih, List.flatMap_cons]

end OutputState

/-! ## The loops of `infer` -/

/-- The choice of an output without a finish reason is quiet, a text that is not empty, or a tool
call. -/
theorem readChoice_none (lib : EngineLibrary) (template : ChatTemplateEngine) (o : OutputState)
    (content : Text) :
    ((o.readChoice lib template none content).2.finishReason = none ∧
      (o.readChoice lib template none content).2.content ≠ some []) ∨
    (o.readChoice lib template none content).2.IsCall lib := by
  rcases readChoice_cases lib template o none content with ⟨-, hnone⟩ | ⟨-, hcall⟩
  · refine .inl ⟨hnone, ?_⟩
    by_cases hbotc : content = template.botcToken
    · rw [hbotc, o.readChoice_botc]
      simp
    by_cases heotc : content = template.eotcToken
    · rw [heotc] at hbotc hnone ⊢
      rw [o.readChoice_eotc none hbotc] at hnone ⊢
      cases hjson : ChatTemplateEngine.getJsonStrIfValid lib o.toolCallTokens with
      | none => simp
      | some text => simp [hjson] at hnone
    by_cases hmode : o.mode = .toolCall
    · rw [o.readChoice_inside none hbotc heotc hmode]
      simp
    · rw [o.readChoice_outside none hbotc heotc hmode]
      split_ifs with hthink hend hempty
      all_goals simp [*]
  · exact .inr hcall

/-- The response of a step brings these deltas, and the call runs on. -/
structure ResponseState.Brings (resp : ResponseState) (deltas : List Delta) : Prop where
  running : resp.finishReason ≠ some "stop"
  content : resp.finishReason = none → ∀ m, resp.message = some m → m.content ≠ none
  packets : ∀ ignoreReasoningMessages sequence, List.Forall₂ Delta.SentAs
    (Infer.packets ignoreReasoningMessages sequence resp)
    (deltas.filter (Delta.isShown ignoreReasoningMessages))

/-- The response of a step without a choice. -/
theorem brings_fresh : ResponseState.Brings ⟨none, none⟩ [] := ⟨by simp, by simp, fun _ _ => .nil⟩

/-- The response for a text. -/
theorem putChoice_text (mode : OutputMode) (uuid : ℕ → String) {text : Text} (h : text ≠ []) :
    ∃ resp drawn, ResponseState.putChoice lib mode uuid 0 ⟨none, none⟩ ⟨none, some text⟩ =
        .ok (resp, drawn) ∧
      resp.Brings [.text text (mode = .reasoning)] := by
  refine ⟨_, _, rfl, by simp, by simp, fun ignoreReasoningMessages sequence => ?_⟩
  unfold Infer.packets Infer.dismissDelta
  have hempty : decide (text = []) = false := decide_eq_false h
  by_cases hshown : (ignoreReasoningMessages && decide (mode = .reasoning)) = true
  · simp [Delta.isShown, hshown]
  · simp [Delta.isShown, hshown, hempty, Delta.SentAs]

/-- The response for a tool call. -/
theorem putChoice_functions (mode : OutputMode) (uuid : ℕ → String) {text : Text} {j : Json}
    (h : lib.parse text = some j) :
    ∃ resp drawn, ResponseState.putChoice lib mode uuid 0 ⟨none, none⟩
        ⟨some .toolCalls, some text⟩ = .ok (resp, drawn) ∧ resp.Brings [.calls j.functions] := by
  unfold ResponseState.putChoice
  simp only [h]
  refine ⟨_, _, rfl, by simp, by simp, fun ignoreReasoningMessages sequence => ?_⟩
  refine .cons ⟨sequence, uuid, ?_⟩ .nil
  simp only [Option.getD_none, List.nil_append, Nat.zero_add]
  rfl

/-- What the callback makes of the choice of an output without a finish reason. -/
theorem responds (requestId : String) (mode : OutputMode) (uuid : ℕ → String) {choice : Choice}
    (h : (choice.finishReason = none ∧ choice.content ≠ some []) ∨ choice.IsCall lib) :
    (MlcLlmEngine.responseOf requestId choice = [] ∧ choice.deltas lib mode = []) ∨
    (MlcLlmEngine.responseOf requestId choice = [⟨requestId, [choice]⟩] ∧
      ∃ resp drawn, ResponseState.putChoice lib mode uuid 0 ⟨none, none⟩ choice =
        .ok (resp, drawn) ∧ resp.Brings (choice.deltas lib mode)) := by
  obtain ⟨finishReason, content⟩ := choice
  rcases h with ⟨hnone, hcontent⟩ | ⟨hcall, text, htext, hparse⟩
  · obtain rfl := hnone
    cases content with
    | none => exact .inl ⟨rfl, rfl⟩
    | some text => exact .inr ⟨rfl, putChoice_text mode uuid fun h => hcontent (congrArg some h)⟩
  · obtain rfl := hcall
    obtain rfl := htext
    obtain ⟨j, hj⟩ := Option.isSome_iff_exists.mp hparse
    have hdeltas : Choice.deltas lib mode ⟨some .toolCalls, some text⟩ = [.calls j.functions] := by
      simp only [Choice.deltas, hj]
    rw [hdeltas]
    exact .inr ⟨rfl, putChoice_functions mode uuid hj⟩

namespace MlcLlmEngine

variable {e : MlcLlmEngine lib} {requestId : String} {v : Reading lib}

/-- Callbacks without outputs do nothing. -/
theorem callBack_quiet (uuid : ℕ → String) (drawn : ℕ) {callbacks : List (List StreamOutput)}
    (h : callbacks.flatten = []) : e.callBack template uuid drawn callbacks = .ok (e, drawn) := by
  induction callbacks with
  | nil => rfl
  | cons ds callbacks ih =>
    rw [List.flatten_cons, List.append_eq_nil_iff] at h
    rw [h.1]
    exact ih h.2

/-- Callbacks with one output are one callback with it. -/
theorem callBack_one (uuid : ℕ → String) {drawn drawn₁ : ℕ} {callbacks : List (List StreamOutput)}
    {d : StreamOutput} {e₁ : MlcLlmEngine lib} (hflat : callbacks.flatten = [d])
    (h : e.callBack template uuid drawn [[d]] = .ok (e₁, drawn₁)) :
    e.callBack template uuid drawn callbacks = .ok (e₁, drawn₁) := by
  induction callbacks with
  | nil => cases hflat
  | cons ds callbacks ih =>
    cases ds with
    | nil => exact ih hflat
    | cons d' ds =>
      rw [List.flatten_cons, List.cons_append, List.cons.injEq, List.append_eq_nil_iff] at hflat
      obtain ⟨rfl, rfl, hrest⟩ := hflat
      exact (callBack_append uuid callbacks h).trans (callBack_quiet uuid drawn₁ hrest)

variable (template) in
/-- The response of a step with one output, which has no finish reason. -/
theorem callBack_hear (h : e.Reads requestId v) (uuid : ℕ → String)
    (hresp : e.responseMap.lookup requestId = some ⟨none, none⟩) (ids : List ℤ) :
    ∃ e' drawn resp, e.callBack template uuid 0 [[.single requestId none ids]] = .ok (e', drawn) ∧
      e'.Reads requestId ⟨(lib.put v.streamer ids).1,
        (v.output.hearChunk lib template (lib.put v.streamer ids).2).1⟩ ∧
      e'.responseMap.lookup requestId = some resp ∧
      resp.Brings (v.output.hearChunk lib template (lib.put v.streamer ids).2).2 := by
  obtain ⟨e₁, hread, hreads, hmap⟩ := readOutput_single template h none ids
  have hget : e.getResponseFromStreamOutput template [.single requestId none ids] =
      .ok (e₁, responseOf requestId (v.read template none ids).2) := by
    rw [getResponseFromStreamOutput, hread, Except.ok_bind]
    dsimp only
    rw [getResponseFromStreamOutput, Except.ok_bind, List.append_nil]
    rfl
  have hdeltas : (v.output.hearChunk lib template (lib.put v.streamer ids).2).2 =
      (v.read template none ids).2.deltas lib e₁.mode := by
    rw [congrArg OutputState.mode hreads.output]
    rfl
  have hchoice := readChoice_none lib template v.output (lib.put v.streamer ids).2
  rw [← hmap] at hresp
  rw [hdeltas, callBack, hget, Except.ok_bind]
  dsimp only
  rcases responds requestId e₁.mode uuid hchoice with
    ⟨hquiet, hnone⟩ | ⟨hsome, resp, drawn, hput, hbrings⟩
  · -- The text makes no response.
    refine ⟨e₁, 0, ⟨none, none⟩, ?_, hreads, hresp, ?_⟩
    · exact congrArg (fun r => putResponses uuid e₁ 0 r >>= fun p => .ok p) hquiet
    · exact hnone ▸ brings_fresh
  · refine ⟨{ e₁ with responseMap := e₁.responseMap.insert requestId resp }, drawn, resp, ?_,
      hreads.withResponses _, AList.lookup_insert _, hbrings⟩
    have hresponse : responseOf requestId (v.read template none ids).2 =
        [⟨requestId, [(v.read template none ids).2]⟩] := hsome
    have hput' : ResponseState.putChoice lib e₁.mode uuid 0 ⟨none, none⟩
        (v.read template none ids).2 = .ok (resp, drawn) := hput
    rw [hresponse, putResponses]
    dsimp only
    rw [hresp]
    dsimp only
    rw [hput']
    rfl

end MlcLlmEngine

/-- A step with one output of the request, which has no finish reason. -/
def EngineStep.One (requestId : String) (s : EngineStep) (ids : List ℤ) : Prop :=
  s.callbacks.flatten = [.single requestId none ids]

/-- The texts that a streamer gives for the tokens of outputs without a finish reason. -/
def EngineLibrary.chunks (lib : EngineLibrary) (s : lib.TextStreamer) : List (List ℤ) → List Text
  | [] => []
  | ids :: idss => (lib.put s ids).2 :: lib.chunks (lib.put s ids).1 idss

section Serve

variable {requestId : String} {v : Reading lib}

variable (template) in
/-- A step with one output sends what is heard of its chunk. -/
theorem advance_hear (ignoreReasoningMessages : Bool) {c : InferCall lib}
    (h : Infer.Reads c requestId v) {s : EngineStep} {ids : List ℤ} (hs : s.One requestId ids) :
    ∃ c' packets, c.advance template ignoreReasoningMessages s = .ok c' ∧
      Infer.Reads c' requestId ⟨(lib.put v.streamer ids).1,
        (v.output.hearChunk lib template (lib.put v.streamer ids).2).1⟩ ∧
      c'.sent = c.sent ++ packets ∧ List.Forall₂ Delta.SentAs packets
        ((v.output.hearChunk lib template (lib.put v.streamer ids).2).2.filter
          (Delta.isShown ignoreReasoningMessages)) := by
  obtain ⟨e', drawn, resp, hback, hreads, hresp, hbrings⟩ := MlcLlmEngine.callBack_hear template
    (h.engine.withResponses _) s.uuid (AList.lookup_insert _) ids
  have hback' := MlcLlmEngine.callBack_one s.uuid hs hback
  obtain ⟨c', hadvance, hsent, hrunning, hid, hreads'⟩ := Infer.advance_of_callBack template
    ignoreReasoningMessages h hback' hreads hresp hbrings.content
  refine ⟨c', _, hadvance, ⟨?_, hid, hreads'⟩, hsent, hbrings.packets _ _⟩
  rw [hrunning, decide_eq_false hbrings.running, Bool.and_false, Bool.not_false]

variable (template) in
/-- Steps with one output each send what is heard of their chunks. -/
theorem serve_hear (ignoreReasoningMessages : Bool) {c : InferCall lib}
    (h : Infer.Reads c requestId v) {steps : List EngineStep} {idss : List (List ℤ)}
    (hsteps : List.Forall₂ (EngineStep.One requestId) steps idss) :
    ∃ c' packets, c.serve template ignoreReasoningMessages steps = .ok c' ∧ c'.running = true ∧
      c'.engine.toOutputState = (v.output.hear lib template (lib.chunks v.streamer idss)).1 ∧
      c'.sent = c.sent ++ packets ∧ List.Forall₂ Delta.SentAs packets
        ((v.output.hear lib template (lib.chunks v.streamer idss)).2.filter
          (Delta.isShown ignoreReasoningMessages)) := by
  induction hsteps generalizing c v with
  | nil => exact ⟨c, [], rfl, h.running, h.engine.output, (List.append_nil _).symm, .nil⟩
  | cons hs _ ih =>
    obtain ⟨c₁, packets, hadvance, h₁, hsent, hpackets⟩ :=
      advance_hear template ignoreReasoningMessages h hs
    obtain ⟨c₂, rest, hserve, hrunning, houtput, hsent₂, hrest⟩ := ih h₁
    refine ⟨c₂, packets ++ rest, ?_, hrunning, houtput, ?_, ?_⟩
    · rw [InferCall.serve, hadvance, Except.ok_bind]
      exact hserve
    · rw [hsent₂, hsent, List.append_assoc]
    · rw [EngineLibrary.chunks, OutputState.hear]
      dsimp only
      rw [List.filter_append]
      exact List.rel_append hpackets hrest

end Serve

/-- With one output in each step, and from the output mode `text` without collected texts, the
deltas of closed segments are those of the reference, without the reasoning ones when they are
ignored. -/
theorem output_modes_refine (lib : EngineLibrary) {template : ChatTemplateEngine}
    (hmarkers : template.Distinct) (ignoreReasoningMessages : Bool) {e : MlcLlmEngine lib}
    (hstart : e.toOutputState = ⟨.text, []⟩) (herror : e.lastError = none) (requestId : String)
    (segments : List (Segment template)) {steps : List EngineStep} {idss : List (List ℤ)}
    (hsteps : List.Forall₂ (EngineStep.One requestId) steps idss)
    (hchunks : lib.chunks lib.textStreamer idss = segments.flatMap Segment.chunks) :
    ∃ c, (InferCall.start e requestId none).serve template ignoreReasoningMessages steps = .ok c ∧
      c.running = true ∧ c.engine.toOutputState = ⟨.text, []⟩ ∧ List.Forall₂ Delta.SentAs c.sent
        ((segments.flatMap (Segment.deltas lib)).filter
          (Delta.isShown ignoreReasoningMessages)) := by
  have hreads : Infer.Reads (InferCall.start e requestId none) requestId
      ⟨lib.textStreamer, ⟨.text, []⟩⟩ := ⟨rfl, rfl, AList.lookup_insert _, hstart, herror⟩
  obtain ⟨c, packets, hserve, hrunning, houtput, hsent, hpackets⟩ :=
    serve_hear template ignoreReasoningMessages hreads hsteps
  rw [hchunks, OutputState.hear_segments hmarkers] at houtput hpackets
  refine ⟨c, hserve, hrunning, houtput, ?_⟩
  rw [hsent]
  exact hpackets

/-- The tokens of `a<think>b</think><{}>`, one for each chunk. -/
def sampleTokens : List (List ℤ) :=
  [[0x61], [0x3C, 0x74, 0x68, 0x69, 0x6E, 0x6B, 0x3E], [0x62],
    [0x3C, 0x2F, 0x74, 0x68, 0x69, 0x6E, 0x6B, 0x3E], [0x3C], [0x7B, 0x7D], [0x3E]]

/-- The deltas of that are the text, the reasoning and the call of an empty object. -/
theorem output_modes_refine_sample :
    ∃ c, (InferCall.start (@MlcLlmEngine.created byteLibrary) "r" none).serve angleTemplate false
        (sampleTokens.map (textStep "r")) = .ok c ∧
      c.running = true ∧ c.engine.toOutputState = ⟨.text, []⟩ ∧ List.Forall₂ Delta.SentAs c.sent
        [.text [0x61] false, .text [0x62] true, .calls [.object []]] :=
  output_modes_refine byteLibrary
    ⟨by decide, by decide, by decide, by decide, by decide⟩ false rfl rfl "r"
    [.text [0x61] (by decide), .think [[0x62]] (by decide), .tool [[0x7B, 0x7D]] (by decide)]
    (List.forall₂_map_left_iff.mpr (List.forall₂_same.mpr fun _ _ => rfl)) rfl

end Ailoy
