import Ailoy.Vm.Infer

/-!
# The outputs of one request

What the engine does with the outputs of a request that has one choice. A `Reading` is what the
reading of the next output depends on: the streamer of the request and the output mode with its
collected texts. `readChoice_botc`, `readChoice_eotc`, `readChoice_inside` and `readChoice_outside`
are the branches of the reading of a text. `Overrides` is the one case in which the engine replaces
the finish reason of an output, and `readChoice_cases` says so. From it follow the responses of
outputs without a finish reason (`Calm`), and that the response of a step stays `Open` under them.
-/

namespace Ailoy

/-- The streamer of a request, and the output mode. -/
structure Reading (lib : EngineLibrary) where
  streamer : lib.TextStreamer
  output : OutputState

/-- An output of a request with one choice. -/
def StreamOutput.single (requestId : String) (reason : Option String) (ids : List ℤ) :
    StreamOutput := ⟨requestId, none, [reason], [ids]⟩

/-- The tokens of outputs, in order. -/
def tokenIds (outputs : List StreamOutput) : List (List ℤ) :=
  outputs.flatMap (·.groupDeltaTokenIds)

/-- An output of a request that has no finish reason. -/
def StreamOutput.IsText (requestId : String) (d : StreamOutput) : Prop :=
  ∃ ids, d = .single requestId none ids

/-- A step of the engine with nothing but such outputs. -/
def EngineStep.IsText (requestId : String) (s : EngineStep) : Prop :=
  ∀ d ∈ s.callbacks.flatten, d.IsText requestId

namespace Reading

variable {lib : EngineLibrary} (template : ChatTemplateEngine)

/-- The text of an output, with what `Finish` adds to it. -/
def chunk (v : Reading lib) (reason : Option String) (ids : List ℤ) : lib.TextStreamer × Text :=
  let (streamer, content) := lib.put v.streamer ids
  if reason.isSome then
    let (streamer, rest) := lib.finish streamer
    (streamer, content ++ rest)
  else (streamer, content)

/-- The reading of an output, and its choice. -/
def read (v : Reading lib) (reason : Option String) (ids : List ℤ) : Reading lib × Choice :=
  let (streamer, content) := v.chunk reason ids
  let (o, choice) := v.output.readChoice lib template (reason.bind FinishReason.ofName) content
  (⟨streamer, o⟩, choice)

/-- The reading after outputs without a finish reason. -/
def readAll (v : Reading lib) (idss : List (List ℤ)) : Reading lib :=
  idss.foldl (fun v ids => (v.read template none ids).1) v

theorem readAll_append (v : Reading lib) (ds ds' : List StreamOutput) :
    v.readAll template (tokenIds (ds ++ ds')) =
      (v.readAll template (tokenIds ds)).readAll template (tokenIds ds') := by
  unfold readAll tokenIds
  rw [List.flatMap_append, List.foldl_append]

end Reading

/-- The engine replaces the reason of an output with this text: the text is the marker that ends a
tool call segment, and the collected texts are a valid JSON text. -/
def Overrides (lib : EngineLibrary) (template : ChatTemplateEngine) (o : OutputState)
    (content : Text) : Prop :=
  template.isBotcToken content = false ∧ template.isEotcToken content = true ∧
    (ChatTemplateEngine.getJsonStrIfValid lib o.toolCallTokens).isSome = true

instance (lib : EngineLibrary) (template : ChatTemplateEngine) (o : OutputState) (content : Text) :
    Decidable (Overrides lib template o content) := inferInstanceAs (Decidable (_ ∧ _))

/-- A choice that carries the finish reason of a tool call with the JSON text of it. -/
def Choice.IsCall (lib : EngineLibrary) (choice : Choice) : Prop :=
  choice.finishReason = some .toolCalls ∧
    ∃ text, choice.content = some text ∧ (lib.parse text).isSome = true

namespace OutputState

variable {lib : EngineLibrary} {template : ChatTemplateEngine} (o : OutputState)
  (reason : Option FinishReason) {content : Text}

/-- The marker that opens a tool call segment. -/
theorem readChoice_botc : o.readChoice lib template reason template.botcToken =
    ({ o with mode := .toolCall }, ⟨reason, none⟩) :=
  if_pos (decide_eq_true rfl)

/-- The marker that closes a tool call segment, with a valid JSON text or without one. -/
theorem readChoice_eotc (hne : template.eotcToken ≠ template.botcToken) :
    o.readChoice lib template reason template.eotcToken =
      (⟨.text, []⟩, (ChatTemplateEngine.getJsonStrIfValid lib o.toolCallTokens).elim ⟨reason, none⟩
        fun text => ⟨some .toolCalls, some text⟩) := by
  unfold readChoice ChatTemplateEngine.isBotcToken ChatTemplateEngine.isEotcToken
  rw [if_neg (by simpa using hne), if_pos (decide_eq_true rfl)]
  cases ChatTemplateEngine.getJsonStrIfValid lib o.toolCallTokens with
  | none => rfl
  | some text => rfl

/-- A tool call segment collects every other text. -/
theorem readChoice_inside (hbotc : content ≠ template.botcToken)
    (heotc : content ≠ template.eotcToken) (hmode : o.mode = .toolCall) :
    o.readChoice lib template reason content =
      ({ o with toolCallTokens := o.toolCallTokens ++ [content] }, ⟨reason, none⟩) := by
  unfold readChoice ChatTemplateEngine.isBotcToken ChatTemplateEngine.isEotcToken
  rw [if_neg (by simpa using hbotc), if_neg (by simpa using heotc), if_pos hmode]

/-- Outside of a tool call segment every other text is a think marker or a content. -/
theorem readChoice_outside (hbotc : content ≠ template.botcToken)
    (heotc : content ≠ template.eotcToken) (hmode : o.mode ≠ .toolCall) :
    o.readChoice lib template reason content =
      if content = thinkToken then ({ o with mode := .reasoning }, ⟨reason, none⟩)
      else if content = endThinkToken then ({ o with mode := .text }, ⟨reason, none⟩)
      else (o, ⟨reason, if content = [] then none else some content⟩) := by
  unfold readChoice ChatTemplateEngine.isBotcToken ChatTemplateEngine.isEotcToken
  rw [if_neg (by simpa using hbotc), if_neg (by simpa using heotc), if_neg hmode]
  by_cases hempty : content = []
  · -- The empty text is no think marker.
    rw [if_neg (not_not_intro hempty), if_pos hempty, hempty, if_neg (by decide),
      if_neg (by decide)]
  · rw [if_pos hempty, if_neg hempty]

end OutputState

/-- The reason of a choice is the one of the output, unless the engine replaces it. -/
theorem readChoice_cases (lib : EngineLibrary) (template : ChatTemplateEngine) (o : OutputState)
    (reason : Option FinishReason) (content : Text) :
    (¬ Overrides lib template o content ∧
      (o.readChoice lib template reason content).2.finishReason = reason) ∨
    (Overrides lib template o content ∧
      (o.readChoice lib template reason content).2.IsCall lib) := by
  by_cases hbotc : content = template.botcToken
  · rw [hbotc, o.readChoice_botc]
    exact .inl ⟨fun h => of_decide_eq_false h.1 rfl, rfl⟩
  by_cases heotc : content = template.eotcToken
  · rw [heotc] at hbotc ⊢
    rw [o.readChoice_eotc reason hbotc]
    unfold Overrides ChatTemplateEngine.getJsonStrIfValid
    dsimp only
    by_cases hjson : (lib.parse (SplitText.trim (SplitText.join [] o.toolCallTokens))).isSome = true
    · rw [if_pos hjson]
      exact .inr ⟨⟨decide_eq_false hbotc, decide_eq_true rfl, rfl⟩, rfl, _, rfl, hjson⟩
    · rw [if_neg hjson]
      exact .inl ⟨fun h => by simp at h, rfl⟩
  · refine .inl ⟨fun h => heotc (of_decide_eq_true h.2.1), ?_⟩
    by_cases hmode : o.mode = .toolCall
    · rw [o.readChoice_inside reason hbotc heotc hmode]
    · rw [o.readChoice_outside reason hbotc heotc hmode]
      split_ifs <;> rfl

/-- A response that asks for no more than a delta or a tool call. -/
def StreamResponse.Calm (lib : EngineLibrary) (requestId : String) (r : StreamResponse) : Prop :=
  r.id = requestId ∧ ∃ choice, r.choices = [choice] ∧
    (choice.finishReason = none ∨ choice.IsCall lib)

/-- The response of a step after such responses only: it has a text, or tool calls. -/
def ResponseState.Open (resp : ResponseState) : Prop :=
  (resp.finishReason = none ∧ ∀ m, resp.message = some m → m.content ≠ none) ∨
    (resp.finishReason = some "tool_calls" ∧ resp.message ≠ none)

namespace ResponseState

variable {lib : EngineLibrary} {resp : ResponseState} {choice : Choice}

/-- A tool call makes the finish reason of the response that of a tool call. -/
theorem putChoice_call (mode : OutputMode) (uuid : ℕ → String) (drawn : ℕ)
    (h : choice.IsCall lib) : ∃ resp' drawn', resp.putChoice lib mode uuid drawn choice =
      .ok (resp', drawn') ∧ resp'.finishReason = some "tool_calls" ∧ resp'.message ≠ none := by
  obtain ⟨hreason, text, htext, hparse⟩ := h
  obtain ⟨j, hj⟩ := Option.isSome_iff_exists.mp hparse
  unfold putChoice
  rw [hreason, htext]
  dsimp only
  rw [hj]
  exact ⟨_, _, rfl, rfl, Option.some_ne_none _⟩

/-- Any other finish reason becomes that of the response, and the content becomes a newline. -/
theorem putChoice_reason (mode : OutputMode) (uuid : ℕ → String) (drawn : ℕ)
    {reason : FinishReason} (h : choice.finishReason = some reason) (hne : reason ≠ .toolCalls) :
    ∃ resp' drawn' message, resp.putChoice lib mode uuid drawn choice = .ok (resp', drawn') ∧
      resp'.finishReason = some reason.name ∧ resp'.message = some message ∧
      message.content = some [0x0A] := by
  unfold putChoice
  rw [h]
  cases reason with
  | toolCalls => exact absurd rfl hne
  | stop => exact ⟨_, _, _, rfl, rfl, rfl, rfl⟩
  | length => exact ⟨_, _, _, rfl, rfl, rfl, rfl⟩
  | error => exact ⟨_, _, _, rfl, rfl, rfl, rfl⟩

/-- Under calm choices a response stays open. -/
theorem putChoice_open (mode : OutputMode) (uuid : ℕ → String) (drawn : ℕ) (hopen : resp.Open)
    (h : choice.finishReason = none ∨ choice.IsCall lib) :
    ∃ resp' drawn', resp.putChoice lib mode uuid drawn choice = .ok (resp', drawn') ∧
      resp'.Open := by
  rcases h with hnone | hcall
  · unfold putChoice
    rw [hnone]
    dsimp only
    cases hcontent : choice.content with
    | none => exact ⟨resp, drawn, rfl, hopen⟩
    | some text =>
      refine ⟨_, _, rfl, ?_⟩
      rcases hopen with ⟨hfinish, -⟩ | ⟨hfinish, -⟩
      · refine .inl ⟨hfinish, fun m hm => ?_⟩
        rw [← Option.some.inj hm]
        exact Option.some_ne_none _
      · exact .inr ⟨hfinish, Option.some_ne_none _⟩
  · obtain ⟨resp', drawn', hput, hfinish, hmessage⟩ := putChoice_call mode uuid drawn hcall
    exact ⟨resp', drawn', hput, .inr ⟨hfinish, hmessage⟩⟩

end ResponseState

namespace MlcLlmEngine

variable {lib : EngineLibrary} {template : ChatTemplateEngine} {e : MlcLlmEngine lib}
  {requestId : String} {v : Reading lib}

/-- The engine reads the outputs of a request from `v`, and it has no error. -/
structure Reads (e : MlcLlmEngine lib) (requestId : String) (v : Reading lib) : Prop where
  streamers : e.requestMap.lookup requestId = some [v.streamer]
  output : e.toOutputState = v.output
  lastError : e.lastError = none

/-- The responses are no part of what is read. -/
theorem Reads.withResponses {e : MlcLlmEngine lib} {requestId : String} {v : Reading lib}
    (h : e.Reads requestId v) (responseMap : UnorderedMap String ResponseState) :
    Reads { e with responseMap } requestId v :=
  ⟨h.streamers, h.output, h.lastError⟩

/-- The response for a choice, which is left out when it is empty. -/
def responseOf (requestId : String) (choice : Choice) : List StreamResponse :=
  if choice.content.isSome || choice.finishReason.isSome then [⟨requestId, [choice]⟩] else []

/-- The loop over a group of one choice. -/
theorem readGroup_single (v : Reading lib) (reason : Option String) (ids : List ℤ) :
    readGroup template v.output [reason] [ids] [v.streamer] =
      ((v.read template reason ids).1.output, [(v.read template reason ids).1.streamer],
        if (v.read template reason ids).2.content.isSome ||
            (v.read template reason ids).2.finishReason.isSome then
          [(v.read template reason ids).2]
        else []) := by
  unfold readGroup readGroup Reading.read Reading.chunk
  cases reason with
  | none => rfl
  | some reason => rfl

variable (template) in
/-- The reading of an output of the request. -/
theorem readOutput_single (h : e.Reads requestId v) (reason : Option String) (ids : List ℤ) :
    ∃ e', e.readOutput template (.single requestId reason ids) =
        .ok (e', responseOf requestId (v.read template reason ids).2) ∧
      e'.Reads requestId (v.read template reason ids).1 ∧ e'.responseMap = e.responseMap := by
  have hsizes : ¬ ([reason].length = 0 ∨ [ids].length ≠ [reason].length ∨
      [ids].length ≠ [v.streamer].length) := by simp
  refine ⟨{ e with
    toOutputState := (v.read template reason ids).1.output
    requestMap := e.requestMap.insert requestId [(v.read template reason ids).1.streamer] },
    ?_, ⟨AList.lookup_insert _, rfl, h.lastError⟩, rfl⟩
  unfold readOutput StreamOutput.single responseOf
  simp only [h.streamers, h.output, if_neg hsizes, readGroup_single]
  by_cases hkeep : ((v.read template reason ids).2.content.isSome ||
      (v.read template reason ids).2.finishReason.isSome) = true
  · rw [if_pos hkeep, if_pos hkeep, if_pos (List.cons_ne_nil _ _)]
  · rw [if_neg hkeep, if_neg hkeep, if_neg (not_not_intro rfl)]

theorem getResponse_append {e₁ e₂ : MlcLlmEngine lib} {ds ds' : List StreamOutput}
    {responses responses' : List StreamResponse}
    (h : e.getResponseFromStreamOutput template ds = .ok (e₁, responses))
    (h' : e₁.getResponseFromStreamOutput template ds' = .ok (e₂, responses')) :
    e.getResponseFromStreamOutput template (ds ++ ds') = .ok (e₂, responses ++ responses') := by
  induction ds generalizing e responses with
  | nil =>
    obtain ⟨rfl, rfl⟩ := Prod.mk.inj (Except.ok.inj h)
    exact h'
  | cons d ds ih =>
    obtain ⟨⟨e₃, response⟩, hread, h⟩ := Except.bind_eq_ok_iff.mp h
    obtain ⟨⟨e₄, rest⟩, hget, h⟩ := Except.bind_eq_ok_iff.mp h
    obtain ⟨rfl, rfl⟩ := Prod.mk.inj (Except.ok.inj h)
    rw [List.cons_append, getResponseFromStreamOutput, hread, Except.ok_bind]
    dsimp only
    rw [ih hget, Except.ok_bind, List.append_assoc]
    rfl

variable (template) in
/-- The responses of outputs without a finish reason are calm. -/
theorem getResponse_texts (h : e.Reads requestId v) {ds : List StreamOutput}
    (htexts : ∀ d ∈ ds, d.IsText requestId) :
    ∃ e' responses, e.getResponseFromStreamOutput template ds = .ok (e', responses) ∧
      e'.Reads requestId (v.readAll template (tokenIds ds)) ∧ e'.responseMap = e.responseMap ∧
      ∀ r ∈ responses, r.Calm lib requestId := by
  induction ds generalizing e v with
  | nil => exact ⟨e, [], rfl, h, rfl, by simp⟩
  | cons d ds ih =>
    obtain ⟨ids, rfl⟩ := htexts d List.mem_cons_self
    obtain ⟨e₁, hread, hreads, hmap⟩ := readOutput_single template h none ids
    obtain ⟨e₂, responses, hget, hreads₂, hmap₂, hcalm⟩ :=
      ih hreads fun d hd => htexts d (List.mem_cons_of_mem _ hd)
    refine ⟨e₂, responseOf requestId (v.read template none ids).2 ++ responses, ?_, hreads₂,
      hmap₂.trans hmap, fun r hr => ?_⟩
    · rw [getResponseFromStreamOutput, hread, Except.ok_bind]
      dsimp only
      rw [hget, Except.ok_bind]
      rfl
    · rcases List.mem_append.mp hr with hr | hr
      · unfold responseOf at hr
        split_ifs at hr
        · rw [List.mem_singleton.mp hr]
          refine ⟨rfl, _, rfl, ?_⟩
          rcases readChoice_cases lib template v.output none (v.chunk none ids).2 with h | h
          · exact .inl h.2
          · exact .inr h.2
        · simp at hr
      · exact hcalm r hr

/-- The responses that are calm leave the response of the request open. -/
theorem putResponses_calm (uuid : ℕ → String) (drawn : ℕ) {responses : List StreamResponse}
    (hcalm : ∀ r ∈ responses, r.Calm lib requestId) {resp : ResponseState}
    (hresp : e.responseMap.lookup requestId = some resp) (hopen : resp.Open)
    (h : e.Reads requestId v) :
    ∃ e' drawn' resp', e.putResponses uuid drawn responses = .ok (e', drawn') ∧
      e'.Reads requestId v ∧ e'.responseMap.lookup requestId = some resp' ∧ resp'.Open := by
  induction responses generalizing e drawn resp with
  | nil => exact ⟨e, drawn, resp, rfl, h, hresp, hopen⟩
  | cons r responses ih =>
    obtain ⟨hid, choice, hchoices, hchoice⟩ := hcalm r List.mem_cons_self
    obtain ⟨resp₁, drawn₁, hput, hopen₁⟩ :=
      ResponseState.putChoice_open e.mode uuid drawn hopen hchoice
    unfold putResponses
    rw [hchoices]
    dsimp only
    rw [hid, hresp]
    dsimp only
    rw [hput, Except.ok_bind]
    exact ih drawn₁ (fun r hr => hcalm r (List.mem_cons_of_mem _ hr)) (AList.lookup_insert _) hopen₁
      ⟨h.streamers, h.output, h.lastError⟩

variable (template) in
/-- Callbacks with such outputs leave the response of the request open. -/
theorem callBack_texts (uuid : ℕ → String) (drawn : ℕ) {callbacks : List (List StreamOutput)}
    (htexts : ∀ d ∈ callbacks.flatten, d.IsText requestId) {resp : ResponseState}
    (hresp : e.responseMap.lookup requestId = some resp) (hopen : resp.Open)
    (h : e.Reads requestId v) :
    ∃ e' drawn' resp', e.callBack template uuid drawn callbacks = .ok (e', drawn') ∧
      e'.Reads requestId (v.readAll template (tokenIds callbacks.flatten)) ∧
      e'.responseMap.lookup requestId = some resp' ∧ resp'.Open := by
  induction callbacks generalizing e drawn resp v with
  | nil => exact ⟨e, drawn, resp, rfl, h, hresp, hopen⟩
  | cons ds callbacks ih =>
    rw [List.flatten_cons] at htexts ⊢
    obtain ⟨e₁, responses, hget, hreads, hmap, hcalm⟩ := getResponse_texts template h
      fun d hd => htexts d (List.mem_append_left _ hd)
    rw [← hmap] at hresp
    obtain ⟨e₂, drawn₂, resp₂, hput, hreads₂, hresp₂, hopen₂⟩ :=
      putResponses_calm uuid drawn hcalm hresp hopen hreads
    obtain ⟨e₃, drawn₃, resp₃, hrest, hreads₃, hresp₃, hopen₃⟩ := ih drawn₂
      (fun d hd => htexts d (List.mem_append_right _ hd)) hresp₂ hopen₂ hreads₂
    refine ⟨e₃, drawn₃, resp₃, ?_, ?_, hresp₃, hopen₃⟩
    · rw [callBack, hget, Except.ok_bind]
      dsimp only
      rw [hput, Except.ok_bind]
      exact hrest
    · rw [Reading.readAll_append]
      exact hreads₃

end MlcLlmEngine

end Ailoy
