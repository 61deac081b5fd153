import Ailoy.Core.ValueCodec
import Ailoy.Lib.UnorderedMap
import Ailoy.Vm.SplitText

/-!
# The engine of a language model

`mlc_llm_engine_t` of `vm/src/mlc_llm/mlc_llm_engine.cpp`. A step of the MLC engine calls back with
the outputs of its requests. The callback reads the text of each output through the streamer of the
request, and an output mode tells what to do with it: a marker changes the mode, a text inside a
tool call segment is collected, and any other text becomes the content of a delta. What the code
uses of the tokenizer and of the two JSON parsers is `EngineLibrary`.
-/

namespace Ailoy

/-- What the engine uses of third-party code: a `TextStreamer`, from the one that the tokenizer
makes, `nlohmann::json::parse`, which returns when `nlohmann::json::accept` holds, and the error of
`picojson::parse`. -/
structure EngineLibrary where
  TextStreamer : Type
  textStreamer : TextStreamer
  put : TextStreamer → List ℤ → TextStreamer × Text
  finish : TextStreamer → TextStreamer × Text
  parse : Text → Option Json
  picojsonError : String → Option String

/-- `chat_template_engine_t`: its markers of a tool call segment. -/
structure ChatTemplateEngine where
  botcToken : Text
  eotcToken : Text

namespace ChatTemplateEngine

/-- The markers that `make_from_config_file` takes from the configuration. -/
def fromConfig (botcToken eotcToken : Option Text) : ChatTemplateEngine :=
  ⟨botcToken.getD [], eotcToken.getD []⟩

def isBotcToken (t : ChatTemplateEngine) (token : Text) : Bool := token = t.botcToken

def isEotcToken (t : ChatTemplateEngine) (token : Text) : Bool := token = t.eotcToken

/-- `get_json_str_if_valid`. -/
def getJsonStrIfValid (lib : EngineLibrary) (tokens : List Text) : Option Text :=
  let toolCallString := SplitText.trim (SplitText.join [] tokens)
  if (lib.parse toolCallString).isSome then some toolCallString else none

end ChatTemplateEngine

/-- `output_mode`. -/
inductive OutputMode
  | text
  | toolCall
  | reasoning
  deriving DecidableEq

/-- `mode_` and `tool_call_tokens_`. -/
structure OutputState where
  mode : OutputMode
  toolCallTokens : List Text
  deriving DecidableEq

/-- `mlc::llm::json_ffi::FinishReason`. -/
inductive FinishReason
  | stop
  | length
  | toolCalls
  | error
  deriving DecidableEq

namespace FinishReason

/-- The name of a reason in outputs and in responses. -/
def name : FinishReason → String
  | stop => "stop"
  | length => "length"
  | toolCalls => "tool_calls"
  | error => "error"

/-- The reason of an output. Another name is none. -/
def ofName (s : String) : Option FinishReason :=
  if s = "stop" then some stop
  else if s = "length" then some length
  else if s = "tool_calls" then some toolCalls
  else if s = "error" then some error
  else none

@[simp] theorem ofName_name (r : FinishReason) : ofName r.name = some r := by
  cases r <;> rfl

end FinishReason

/-- `mlc::llm::serve::RequestStreamOutput`. -/
structure StreamOutput where
  requestId : String
  requestFinalUsageJsonStr : Option String
  groupFinishReason : List (Option String)
  groupDeltaTokenIds : List (List ℤ)

/-- `ChatCompletionStreamResponseChoice`, whose role is always the assistant. -/
structure Choice where
  finishReason : Option FinishReason
  content : Option Text

/-- `ChatCompletionStreamResponse`. -/
structure StreamResponse where
  id : String
  choices : List Choice

/-- An element of the `tool_calls` of a message. -/
structure ToolCall where
  index : ℕ
  id : String
  type : String
  function : Json

/-- The JSON object of a message. A content that is `none` is `null`, and the keys `reasoning` and
`tool_calls` are there when they are true and not empty. -/
structure Message where
  role : String
  content : Option Text
  reasoning : Bool
  toolCalls : List ToolCall

/-- `response_state_t`, whose message is `null` at first. -/
structure ResponseState where
  message : Option Message
  finishReason : Option String

/-- `mlc_llm_engine_t`: the output mode, the streamers of the requests, the responses that a step
fills in, and the last error. -/
structure MlcLlmEngine (lib : EngineLibrary) extends OutputState where
  requestMap : UnorderedMap String (List lib.TextStreamer)
  responseMap : UnorderedMap String ResponseState
  lastError : Option String

/-- What the environment does during one step of the engine: the outputs of each callback, and the
ids that `generate_uuid` gives. -/
structure EngineStep where
  callbacks : List (List StreamOutput)
  uuid : ℕ → String

/-- `<think>` and `</think>`. -/
def thinkToken : Text := [0x3C, 0x74, 0x68, 0x69, 0x6E, 0x6B, 0x3E]

def endThinkToken : Text := [0x3C, 0x2F, 0x74, 0x68, 0x69, 0x6E, 0x6B, 0x3E]

namespace OutputState

/-- What `get_response_from_stream_output` does with the text of an output. -/
def readChoice (lib : EngineLibrary) (template : ChatTemplateEngine) (o : OutputState)
    (finishReason : Option FinishReason) (content : Text) : OutputState × Choice :=
  if template.isBotcToken content then
    ({ o with mode := .toolCall }, ⟨finishReason, none⟩)
  else if template.isEotcToken content then
    match ChatTemplateEngine.getJsonStrIfValid lib o.toolCallTokens with
    | some toolCallJsonStr => (⟨.text, []⟩, ⟨some .toolCalls, some toolCallJsonStr⟩)
    | none => (⟨.text, []⟩, ⟨finishReason, none⟩)
  else if o.mode = .toolCall then
    ({ o with toolCallTokens := o.toolCallTokens ++ [content] }, ⟨finishReason, none⟩)
  else if content ≠ [] then
    if content = thinkToken then ({ o with mode := .reasoning }, ⟨finishReason, none⟩)
    else if content = endThinkToken then ({ o with mode := .text }, ⟨finishReason, none⟩)
    else (o, ⟨finishReason, some content⟩)
  else (o, ⟨finishReason, none⟩)

end OutputState

namespace ResponseState

/-- What the callback does with a choice, in an output mode. The number counts the ids that
`generate_uuid` has given in this step. -/
def putChoice (lib : EngineLibrary) (mode : OutputMode) (uuid : ℕ → String) (drawn : ℕ)
    (resp : ResponseState) (choice : Choice) : Except Fault (ResponseState × ℕ) :=
  let message := resp.message.getD ⟨"", none, false, []⟩
  match choice.finishReason with
  | some .toolCalls =>
    match choice.content with
    | none => .error (.exception "InternalError")
    | some text =>
      match lib.parse text with
      | none => .error (.exception "parse_error")
      | some toolCallJson =>
        let functions := match toolCallJson with
          | .array js => js
          | j => [j]
        let calls := functions.zipIdx.map fun p =>
          ⟨p.2, "call_" ++ uuid (drawn + p.2), "function", p.1⟩
        .ok (⟨some { message with
            role := "assistant"
            content := none
            toolCalls := message.toolCalls ++ calls }, some "tool_calls"⟩,
          drawn + functions.length)
  | some reason =>
    .ok (⟨some { message with role := "assistant", content := some [0x0A] }, some reason.name⟩,
      drawn)
  | none =>
    match choice.content with
    | some text =>
      .ok (⟨some { message with
          role := "assistant"
          content := some text
          reasoning := message.reasoning || mode = .reasoning }, resp.finishReason⟩, drawn)
    | none => .ok (resp, drawn)

end ResponseState

namespace MlcLlmEngine

variable {lib : EngineLibrary}

/-- The engine after a constructor that reported no error. -/
def created : MlcLlmEngine lib := ⟨⟨.text, []⟩, ∅, ∅, none⟩

section Callback

variable (template : ChatTemplateEngine)

/-- The loop over the group of an output. -/
def readGroup (o : OutputState) :
    List (Option String) → List (List ℤ) → List lib.TextStreamer →
      OutputState × List lib.TextStreamer × List Choice
  | finishReason :: reasons, ids :: idss, streamer :: streamers =>
    let (streamer, content) := lib.put streamer ids
    let (streamer, content) :=
      if finishReason.isSome then
        let (streamer, rest) := lib.finish streamer
        (streamer, content ++ rest)
      else (streamer, content)
    let (o, choice) := o.readChoice lib template (finishReason.bind FinishReason.ofName) content
    let (o, streamers, choices) := readGroup o reasons idss streamers
    (o, streamer :: streamers,
      if choice.content.isSome || choice.finishReason.isSome then choice :: choices else choices)
  | _, _, streamers => (o, streamers, [])

/-- The loop of `get_response_from_stream_output`, for one output. -/
def readOutput (e : MlcLlmEngine lib) (d : StreamOutput) :
    Except Fault (MlcLlmEngine lib × List StreamResponse) :=
  match e.requestMap.lookup d.requestId with
  | none => .ok (e, [])
  | some streamers =>
    match d.requestFinalUsageJsonStr with
    | some usage =>
      let lastError := match lib.picojsonError usage with
        | some err => some err
        | none => e.lastError
      .ok ({ e with lastError := lastError, requestMap := e.requestMap.erase d.requestId },
        [⟨d.requestId, []⟩])
    | none =>
      if d.groupFinishReason.length = 0 ∨
          d.groupDeltaTokenIds.length ≠ d.groupFinishReason.length ∨
          d.groupDeltaTokenIds.length ≠ streamers.length then
        .error (.exception "InternalError")
      else
        let (o, streamers, choices) := readGroup template e.toOutputState d.groupFinishReason
          d.groupDeltaTokenIds streamers
        .ok ({ e with
            toOutputState := o
            requestMap := e.requestMap.insert d.requestId streamers },
          if choices ≠ [] then [⟨d.requestId, choices⟩] else [])

/-- `get_response_from_stream_output`. -/
def getResponseFromStreamOutput (e : MlcLlmEngine lib) :
    List StreamOutput → Except Fault (MlcLlmEngine lib × List StreamResponse)
  | [] => .ok (e, [])
  | d :: deltaOutputs => do
    let (e, response) ← e.readOutput template d
    let (e, responses) ← getResponseFromStreamOutput e deltaOutputs
    return (e, response ++ responses)

/-- The loop of the callback over the responses. -/
def putResponses (uuid : ℕ → String) (e : MlcLlmEngine lib) (drawn : ℕ) :
    List StreamResponse → Except Fault (MlcLlmEngine lib × ℕ)
  | [] => .ok (e, drawn)
  | response :: responses =>
    match response.choices with
    | [] => putResponses uuid e drawn responses
    | choice :: _ =>
      match e.responseMap.lookup response.id with
      | none => .error (.exception "unordered_map::at")
      | some resp => do
        let (resp, drawn) ← resp.putChoice lib e.mode uuid drawn choice
        putResponses uuid { e with responseMap := e.responseMap.insert response.id resp } drawn
          responses

/-- The callbacks of a step of the MLC engine. -/
def callBack (uuid : ℕ → String) (e : MlcLlmEngine lib) (drawn : ℕ) :
    List (List StreamOutput) → Except Fault (MlcLlmEngine lib × ℕ)
  | [] => .ok (e, drawn)
  | deltaOutputs :: callbacks => do
    let (e, responses) ← e.getResponseFromStreamOutput template deltaOutputs
    let (e, drawn) ← e.putResponses uuid drawn responses
    callBack uuid e drawn callbacks

/-- `initialize_chat_completion`, with the error of `GenerationConfig::Validate`. The request has
one streamer. -/
def initializeChatCompletion (e : MlcLlmEngine lib) (requestId : String)
    (configError : Option String) : MlcLlmEngine lib :=
  match configError with
  | some err => { e with lastError := some err }
  | none => { e with requestMap := e.requestMap.insert requestId [lib.textStreamer] }

/-- `step_chat_completion`. -/
def stepChatCompletion (e : MlcLlmEngine lib) (requestId : String) (s : EngineStep) :
    Except Fault (MlcLlmEngine lib × Option ResponseState) := do
  let e := { e with responseMap := e.responseMap.insert requestId ⟨none, none⟩ }
  let (e, _) ← e.callBack template s.uuid 0 s.callbacks
  if e.lastError.isSome then
    return ({ e with responseMap := e.responseMap.erase requestId }, none)
  else
    match e.responseMap.lookup requestId with
    | none => .error (.exception "unordered_map::at")
    | some resp =>
      let e := { e with responseMap := e.responseMap.erase requestId }
      if resp.message.isNone then return (e, none)
      else return (e, some resp)

end Callback

end MlcLlmEngine

end Ailoy
