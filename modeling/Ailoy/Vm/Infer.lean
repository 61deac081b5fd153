import Ailoy.Lib.Except
import Ailoy.Vm.ChatEngine

/-!
# The inference of a language model

The step function of the method `infer` in `vm/src/mlc_llm/language_model.cpp`, inside the loop of
`handle_call_method`. The step function repeats steps of the engine until one of them gives a delta
that is worth to be sent, or a finish reason; the loop of the call repeats the step function until
an output has the finish flag. Both loops are unbounded. Here the unit is one step of the engine,
and a call takes them one after the other for as long as it runs.
-/

namespace Ailoy

namespace Infer

/-- `dismiss_delta`. A content that is `null` is no string. -/
def dismissDelta (ignoreReasoningMessages : Bool) (delta : Message) : Except Fault Bool :=
  let dismissReasoning := ignoreReasoningMessages && delta.reasoning
  match delta.content with
  | none => .error (.exception "type_error")
  | some content =>
    let waitValidToolCallOutput := content = [] && delta.toolCalls.isEmpty
    .ok (dismissReasoning || waitValidToolCallOutput)

/-- The end of an iteration of the `while` loop: it goes on, or the step function returns. -/
inductive Iteration
  | again
  | error (reason : String)
  | output (message : Message) (finishReason : Option String)

variable {lib : EngineLibrary} (template : ChatTemplateEngine) (ignoreReasoningMessages : Bool)

/-- One iteration of the `while` loop of the step function. -/
def iterate (e : MlcLlmEngine lib) (requestId : String) (s : EngineStep) :
    Except Fault (MlcLlmEngine lib × Iteration) := do
  let (e, stepOutput) ← e.stepChatCompletion template requestId s
  match e.lastError with
  | some err => return (e, .error err)
  | none =>
    match stepOutput with
    | none => return (e, .again)
    | some response =>
      match response.message with
      | none => .error (.exception "type_error")
      | some message =>
        if response.finishReason.isSome then return (e, .output message response.finishReason)
        else do
          let dismissed ← dismissDelta ignoreReasoningMessages message
          if dismissed then return (e, .again)
          else return (e, .output message response.finishReason)

/-- A packet of the call: the delta of an `ok_output_t` with its finish flag, or the reason of an
`error_output_t`. -/
inductive Sent
  | delta (sequence : ℕ) (finish : Bool) (message : Message) (finishReason : Option String)
  | error (sequence : ℕ) (reason : String)

/-- A call of `infer` in the loop of `handle_call_method`. -/
structure InferCall (lib : EngineLibrary) where
  engine : MlcLlmEngine lib
  requestId : String
  sequence : ℕ
  sent : List Sent
  running : Bool

namespace InferCall

/-- The call behind the initialisation of the method. -/
def start (e : MlcLlmEngine lib) (requestId : String) (configError : Option String) :
    InferCall lib :=
  ⟨e.initializeChatCompletion requestId configError, requestId, 0, [], true⟩

/-- The call after a step of the engine. The finish flag stands for the reason `stop`. -/
def advance (c : InferCall lib) (s : EngineStep) : Except Fault (InferCall lib) :=
  if c.running then do
    let (e, i) ← iterate template ignoreReasoningMessages c.engine c.requestId s
    match i with
    | .again => return { c with engine := e }
    | .error reason =>
      return ⟨e, c.requestId, c.sequence + 1, c.sent ++ [.error c.sequence reason], false⟩
    | .output message finishReason =>
      let finish : Bool := finishReason = some "stop"
      return ⟨e, c.requestId, c.sequence + 1,
        c.sent ++ [.delta c.sequence finish message finishReason], !finish⟩
  else return c

/-- The call after steps of the engine. -/
def serve (c : InferCall lib) : List EngineStep → Except Fault (InferCall lib)
  | [] => .ok c
  | s :: steps => do
    let c ← c.advance template ignoreReasoningMessages s
    serve c steps

end InferCall

end Infer

end Ailoy
