import Ailoy.Bindings.Conversation
import Ailoy.Lib.Coroutine
import Ailoy.Lib.Pieces
import Ailoy.Lib.Transition

/-!
# The queries of an agent

`Agent.query` in the two bindings (`bindings/python/ailoy/agent.py`, `bindings/js-node/src/agent.ts`).
It is a generator, which stores messages between its yields. A message with calls is stored before
its tools are run, and a result is stored where it is yielded, so the conversation is well formed
behind a query exactly when every message with calls gets all of its results: each tool is there and
returns, and the consumer pulls up to the last result (`meets_serves_iff`). A tool that throws in
JavaScript leaves its promise as it is, and then the query waits for ever.

What `infer` gives, what a tool does with a call, and how often the consumer pulls are parts of a
`Query`.
-/

namespace Ailoy.Agent

open Transition
open Coroutine (Place)

/-! ## What a query reads and yields -/

/-- The languages of the bindings. -/
inductive Language
  | python
  | javascript

/-- What `str.strip` takes away in Python, and `String.trim` in JavaScript. -/
def Language.isSpace (l : Language) (c : Char) : Bool :=
  let n := c.toNat
  let both := 0x09 ≤ n ∧ n ≤ 0x0D ∨ n = 0x20 ∨ n = 0xA0 ∨ n = 0x1680 ∨ 0x2000 ≤ n ∧ n ≤ 0x200A ∨
    n = 0x2028 ∨ n = 0x2029 ∨ n = 0x202F ∨ n = 0x205F ∨ n = 0x3000
  match l with
  | .python => decide (both ∨ 0x1C ≤ n ∧ n ≤ 0x1F ∨ n = 0x85)
  | .javascript => decide (both ∨ n = 0xFEFF)

/-- A text without the space at its ends. -/
def Language.strip (l : Language) (s : String) : String :=
  String.ofList (Pieces.trim l.isSpace s.toList)

inductive ResponseType
  | outputText
  | reasoning
  | toolCall
  | toolCallResult
  deriving DecidableEq

inductive ResponseContent
  | text (content : String)
  | toolCall (call : ToolCall)
  | toolCallResult (result : ToolCallResultMessage)

/-- `AgentResponse`. -/
structure Response where
  type : ResponseType
  isTypeSwitched : Bool
  content : ResponseContent

/-- What a tool does with a call, once it is found. -/
inductive ToolRun
  /-- It returns, with this as the JSON text. -/
  | returns (content : String)
  /-- It raises or rejects. -/
  | raises

/-- A call with what its tool does with it. -/
structure Requested where
  call : ToolCall
  run : ToolRun

/-- `MessageDelta`. -/
inductive Delta
  /-- `finish_reason` is `tool_calls`. -/
  | toolCalls (calls : List Requested)
  /-- A text. `finished` is whether `finish_reason` is `stop`, `length` or `error`. -/
  | text (content : String) (reasoning finished : Bool)

/-- What a call of `infer` gives. -/
structure InferRun where
  deltas : List Delta
  /-- Whether it raises behind its deltas, or has no more of them. -/
  raises : Bool

structure Query where
  message : String
  enableReasoning : Bool
  ignoreReasoningMessages : Bool
  /-- Whether the agent is valid at the first pull. -/
  valid : Bool
  /-- Whether the runtime is alive at the first pull. -/
  alive : Bool
  /-- The names of the tools. -/
  tools : List String
  /-- What the calls of `infer` give, one after the other. -/
  infers : List InferRun
  /-- How often the consumer pulls before it stops. -/
  pulls : ℕ

/-- How a query ends that does not return. -/
inductive QueryEnd
  | raised
  /-- `Promise.all` is never settled. -/
  | pending
  /-- The next `infer` has not given anything. -/
  | inferring

/-- The messages of an agent, and those that `infer` was called with. -/
structure Chat where
  messages : List Message
  sent : List (List Message)

/-! ## The generator -/

abbrev Body := Coroutine Chat Response QueryEnd

/-- Messages are stored. -/
def Chat.add (s : Chat) (messages : List Message) : Chat :=
  { s with messages := s.messages ++ messages }

/-- `self._messages.append`. -/
def push (m : Message) : Body PUnit := .put fun s => s.add [m]

/-- `infer` is called with the messages. -/
def callInfer : Body PUnit := .put fun s => { s with sent := s.sent ++ [s.messages] }

/-- `reasoning_message` and `output_text_message`. -/
structure Accumulated where
  reasoning : String
  outputText : String

/-- A text is accumulated. -/
def Accumulated.add (acc : Accumulated) (content : String) (reasoning : Bool) : Accumulated :=
  if reasoning then { acc with reasoning := acc.reasoning ++ content }
  else { acc with outputText := acc.outputText ++ content }

/-- `assistant_message_content`. -/
def assistantMessageContent (l : Language) (q : Query) (acc : Accumulated) : String :=
  if (q.enableReasoning && !q.ignoreReasoningMessages) && l.strip acc.reasoning != "" then
    "<think>\n" ++ l.strip acc.reasoning ++ "\n</think>\n\n" ++ l.strip acc.outputText
  else l.strip acc.outputText

/-- `_append_assistant_text_message`. Where there is no text, the reasoning stays accumulated. -/
def appendAssistantTextMessage (l : Language) (q : Query) (acc : Accumulated) : Body Accumulated :=
  if l.strip acc.outputText = "" then pure acc
  else do
    push (.outputText (assistantMessageContent l q acc))
    pure ⟨"", ""⟩

/-- `run_tool` in Python. It raises where it has no result. -/
def runTool (tools : List String) (r : Requested) : Option ToolCallResultMessage :=
  match tools.find? (· == r.call.name) with
  -- `RuntimeError("Tool not found")`
  | none => none
  | some _ =>
    match r.run with
    | .returns content => some ⟨r.call.name, r.call.id, content⟩
    | .raises => none

/-- A promise, as far as it gets. -/
inductive Promise (α : Type)
  | fulfilled (a : α)
  | rejected
  | pending

/-- The promise of a tool in JavaScript. Its executor is asynchronous, so what the tool throws goes to
the promise of the executor, and nothing settles the promise of the tool. -/
def toolPromise (tools : List String) (r : Requested) : Promise ToolCallResultMessage :=
  match tools.find? (· == r.call.name) with
  -- `reject("Internal exception")`
  | none => .rejected
  | some _ =>
    match r.run with
    | .returns content => .fulfilled ⟨r.call.name, r.call.id, content⟩
    | .raises => .pending

/-- A promise in front of those of a list. -/
def Promise.cons {α : Type} : Promise α → Promise (List α) → Promise (List α)
  | .rejected, _ => .rejected
  | _, .rejected => .rejected
  | .fulfilled a, .fulfilled as => .fulfilled (a :: as)
  | _, _ => .pending

/-- `Promise.all`. -/
def Promise.all {α : Type} : List (Promise α) → Promise (List α)
  | [] => .fulfilled []
  | p :: ps => p.cons (all ps)

/-- `tool_call_results`. -/
def runTools (l : Language) (tools : List String) (calls : List Requested) :
    Body (List ToolCallResultMessage) :=
  match l with
  | .python =>
    match calls.mapM (runTool tools) with
    | some results => pure results
    | none => .ends .raised
  | .javascript =>
    match Promise.all (calls.map (toolPromise tools)) with
    | .fulfilled results => pure results
    | .rejected => .ends .raised
    | .pending => .ends .pending

/-- A call is yielded. -/
def yieldToolCall (prevRespType : Option ResponseType) (call : ToolCall) :
    Body (Option ResponseType) := do
  .emit ⟨.toolCall, prevRespType != some .toolCall, .toolCall call⟩
  pure (some .toolCall)

/-- A result is stored and yielded. -/
def yieldToolResult (prevRespType : Option ResponseType) (result : ToolCallResultMessage) :
    Body (Option ResponseType) := do
  push (.toolResult result)
  .emit ⟨.toolCallResult, prevRespType != some .toolCallResult, .toolCallResult result⟩
  pure (some .toolCallResult)

/-- What is done with a message with calls. -/
def toolPhase (l : Language) (tools : List String) (prevRespType : Option ResponseType)
    (calls : List Requested) : Body (Option ResponseType) := do
  push (.toolCalls (calls.map Requested.call))
  let prevRespType ← (calls.map Requested.call).foldlM yieldToolCall prevRespType
  let results ← runTools l tools calls
  results.foldlM yieldToolResult prevRespType

/-- The loop over the deltas of an `infer`. It passes on the last type and `is_tool_called`. -/
def readDeltas (l : Language) (q : Query) (raises : Bool) : Accumulated → Option ResponseType →
    Bool → List Delta → Body (Option ResponseType × Bool)
  | _, prevRespType, isToolCalled, [] =>
    if raises then .ends .raised else pure (prevRespType, isToolCalled)
  | acc, prevRespType, _, .toolCalls calls :: deltas => do
    -- What is accumulated comes in front of the calls.
    let acc ← appendAssistantTextMessage l q acc
    let prevRespType ← toolPhase l q.tools prevRespType calls
    readDeltas l q raises acc prevRespType true deltas
  | acc, prevRespType, isToolCalled, .text content reasoning finished :: deltas => do
    let type := if reasoning then .reasoning else .outputText
    .emit ⟨type, prevRespType != some type, .text content⟩
    if finished then do
      -- This is behind the yield, so it is not done when the consumer stops there.
      let _ ← appendAssistantTextMessage l q (acc.add content reasoning)
      pure (some type, isToolCalled)
    else readDeltas l q raises (acc.add content reasoning) (some type) isToolCalled deltas

/-- The outer loop. -/
def inferLoop (l : Language) (q : Query) : Option ResponseType → List InferRun → Body PUnit
  | _, [] => do
    -- The list is what `infer` has given so far.
    callInfer
    .ends .inferring
  | prevRespType, infer :: infers => do
    callInfer
    let (prevRespType, isToolCalled) ←
      readDeltas l q infer.raises ⟨"", ""⟩ prevRespType false infer.deltas
    if isToolCalled then inferLoop l q prevRespType infers else pure ⟨⟩

/-- `Agent.query`. -/
def query (l : Language) (q : Query) : Body PUnit :=
  if !q.valid then .ends .raised
  else if !q.alive then .ends .raised
  else do
    push (.user q.message)
    inferLoop l q none q.infers

/-! ## When a query keeps the conversation well formed -/

/-- The call has a tool, which returns. -/
def Requested.Succeeds (tools : List String) (r : Requested) : Prop :=
  r.call.name ∈ tools ∧ ∃ content, r.run = .returns content

/-- Along `pulls` pulls of the deltas, each message with calls that is reached gets its results, and
what comes behind with the pulls that are left is `rest`. A text takes one pull, and a message with
calls takes one for each call and one for each result. -/
def ServesDeltas (tools : List String) (raises : Bool) (rest : ℕ → Bool → Prop) :
    ℕ → Bool → List Delta → Prop
  | 0, _, _ => True
  | pulls + 1, isToolCalled, [] => raises = false → rest (pulls + 1) isToolCalled
  | pulls + 1, _, .toolCalls calls :: deltas =>
    (∀ r ∈ calls, r.Succeeds tools) ∧ 2 * calls.length ≤ pulls + 1 ∧
      ServesDeltas tools raises rest (pulls + 1 - 2 * calls.length) true deltas
  | pulls + 1, isToolCalled, .text _ _ finished :: deltas =>
    if finished then rest pulls isToolCalled
    else ServesDeltas tools raises rest pulls isToolCalled deltas

/-- The same along the calls of `infer`, of which there is a next one behind calls of tools. -/
def ServesInfers (tools : List String) : ℕ → List InferRun → Prop
  | _, [] => True
  | pulls, infer :: infers =>
    ServesDeltas tools infer.raises
      (fun pulls isToolCalled => isToolCalled = true → ServesInfers tools pulls infers)
      pulls false infer.deltas

/-- Each message with calls that the query reaches gets its results. -/
def Query.Serves (q : Query) : Prop :=
  q.valid = true → q.alive = true → ServesInfers q.tools q.pulls q.infers

/-- The conversation is well formed, and each that `infer` was called with. -/
def Chat.Sound (s : Chat) : Prop :=
  WellFormed s.messages ∧ ∀ messages ∈ s.sent, WellFormed messages

/-- What is reached is sound, and the query does not wait for ever for its tools. -/
def Fine {α : Type} (r : Chat × Place QueryEnd α) : Prop := r.1.Sound ∧ r.2 ≠ .ended .pending

/-! ## The tools -/

variable {l : Language} {q : Query} {tools : List String} {calls : List Requested} {s : Chat}

/-- What a tool returns, if it does. -/
def ToolRun.content : ToolRun → String
  | .returns content => content
  | .raises => ""

/-- The result of a call that succeeds. -/
def Requested.result (r : Requested) : ToolCallResultMessage :=
  ⟨r.call.name, r.call.id, r.run.content⟩

/-- The results answer the calls. -/
theorem answers_results (calls : List Requested) :
    List.Forall₂ (fun call m => Message.Answers call m) (calls.map Requested.call)
      (calls.map fun r => .toolResult r.result) := by
  induction calls with
  | nil => exact .nil
  | cons r calls ih => exact .cons rfl ih

/-- A call that succeeds has its result in both languages, and one that does not has none. -/
theorem run_cases (tools : List String) (r : Requested) :
    (r.Succeeds tools ∧ runTool tools r = some r.result ∧
      toolPromise tools r = .fulfilled r.result) ∨
    ¬ r.Succeeds tools ∧ runTool tools r = none ∧
      ∀ result, toolPromise tools r ≠ .fulfilled result := by
  have hfound : (tools.find? (· == r.call.name)).isSome = true ↔ r.call.name ∈ tools := by simp
  unfold runTool toolPromise
  cases hfind : tools.find? (· == r.call.name) with
  | none =>
    rw [hfind] at hfound
    exact .inr ⟨fun h => Bool.noConfusion (hfound.mpr h.1), rfl, nofun⟩
  | some name =>
    have hname : r.call.name ∈ tools := hfound.mp (by rw [hfind]; rfl)
    cases hrun : r.run with
    | returns content =>
      have hresult : (⟨r.call.name, r.call.id, content⟩ : ToolCallResultMessage) = r.result := by
        rw [Requested.result, hrun]
        rfl
      exact .inl ⟨⟨hname, content, hrun⟩, congrArg some hresult, congrArg Promise.fulfilled hresult⟩
    | raises =>
      have hfails : ¬ r.Succeeds tools := by
        rintro ⟨-, content, h⟩
        rw [hrun] at h
        cases h
      exact .inr ⟨hfails, rfl, nofun⟩

theorem mapM_runTool_of_succeed (h : ∀ r ∈ calls, r.Succeeds tools) :
    calls.mapM (runTool tools) = some (calls.map Requested.result) := by
  induction calls with
  | nil => rfl
  | cons r calls ih =>
    obtain ⟨hr, hcalls⟩ := List.forall_mem_cons.mp h
    obtain ⟨-, hrun, -⟩ | ⟨hfails, -⟩ := run_cases tools r
    · rw [List.mapM_cons, hrun, ih hcalls]
      rfl
    · exact absurd hr hfails

theorem mapM_runTool_of_fail (h : ¬ ∀ r ∈ calls, r.Succeeds tools) :
    calls.mapM (runTool tools) = none := by
  induction calls with
  | nil => exact absurd nofun h
  | cons r calls ih =>
    rw [List.mapM_cons]
    obtain ⟨hr, hrun, -⟩ | ⟨-, hrun, -⟩ := run_cases tools r
    · rw [hrun, ih fun hcalls => h (List.forall_mem_cons.mpr ⟨hr, hcalls⟩)]
      rfl
    · rw [hrun]
      rfl

theorem all_toolPromise_of_succeed (h : ∀ r ∈ calls, r.Succeeds tools) :
    Promise.all (calls.map (toolPromise tools)) = .fulfilled (calls.map Requested.result) := by
  induction calls with
  | nil => rfl
  | cons r calls ih =>
    obtain ⟨hr, hcalls⟩ := List.forall_mem_cons.mp h
    obtain ⟨-, -, hrun⟩ | ⟨hfails, -⟩ := run_cases tools r
    · rw [List.map_cons, Promise.all, hrun, ih hcalls]
      rfl
    · exact absurd hr hfails

/-- A list of promises is fulfilled only where each of them is. -/
theorem Promise.cons_eq_fulfilled {α : Type} {p : Promise α} {ps : Promise (List α)} {as : List α}
    (h : p.cons ps = .fulfilled as) : ∃ a as', p = .fulfilled a ∧ ps = .fulfilled as' := by
  cases p with
  | fulfilled a =>
    cases ps with
    | fulfilled as' => exact ⟨a, as', rfl, rfl⟩
    | rejected => cases h
    | pending => cases h
  | rejected => cases h
  | pending => cases ps <;> cases h

theorem all_toolPromise_of_fail (h : ¬ ∀ r ∈ calls, r.Succeeds tools)
    (results : List ToolCallResultMessage) :
    Promise.all (calls.map (toolPromise tools)) ≠ .fulfilled results := by
  induction calls generalizing results with
  | nil => exact absurd nofun h
  | cons r calls ih =>
    intro hall
    obtain ⟨result, results', hp, hps⟩ := Promise.cons_eq_fulfilled hall
    obtain ⟨hr, -, -⟩ | ⟨-, -, hnot⟩ := run_cases tools r
    · exact ih (fun hcalls => h (List.forall_mem_cons.mpr ⟨hr, hcalls⟩)) results' hps
    · exact hnot result hp

/-- Where all calls succeed, the tools have their results. -/
theorem runTools_of_succeed (l : Language) (h : ∀ r ∈ calls, r.Succeeds tools) :
    runTools l tools calls = .pass (calls.map Requested.result) := by
  unfold runTools
  rw [mapM_runTool_of_succeed h, all_toolPromise_of_succeed h]
  cases l <;> rfl

/-- Where a call fails, the query ends, or waits for ever. -/
theorem runTools_of_fail (l : Language) (h : ¬ ∀ r ∈ calls, r.Succeeds tools) :
    ∃ e, runTools l tools calls = .ends e := by
  unfold runTools
  rw [mapM_runTool_of_fail h]
  cases l with
  | python => exact ⟨_, rfl⟩
  | javascript =>
    cases hall : Promise.all (calls.map (toolPromise tools)) with
    | fulfilled results => exact absurd hall (all_toolPromise_of_fail h results)
    | rejected => exact ⟨_, rfl⟩
    | pending => exact ⟨_, rfl⟩

/-! ## The steps of a query -/

theorem Chat.add_nil (s : Chat) : s.add [] = s := by
  rw [Chat.add, List.append_nil]

theorem Chat.add_add (s : Chat) (ms ms' : List Message) :
    (s.add ms).add ms' = s.add (ms ++ ms') := by
  simp only [Chat.add, List.append_assoc]

@[simp] theorem run_push {β : Type} (n : ℕ) (m : Message) (k : PUnit → Body β) (s : Chat) :
    Coroutine.run (n + 1) (push m >>= k) s =
      Coroutine.run (n + 1) (k ⟨⟩) (s.add [m]) := Coroutine.run_put ..

/-- The calls are yielded one by one. -/
theorem run_yieldToolCalls {β : Type} (prevRespType : Option ResponseType) (calls : List ToolCall)
    (k : Option ResponseType → Body β) (n : ℕ) (s : Chat) : ∃ prevRespType',
    Coroutine.run n (calls.foldlM yieldToolCall prevRespType >>= k) s =
      Coroutine.run (n - calls.length) (k prevRespType') s := by
  refine ⟨calls.foldl (fun _ _ => some .toolCall) prevRespType, ?_⟩
  rw [Coroutine.run_foldlM (fun s _ => s) (fun _ _ => some .toolCall) fun _ _ _ _ _ => rfl,
    List.foldl_fixed]

/-- What the results leave in the store. -/
theorem foldl_store (results : List ToolCallResultMessage) (s : Chat) :
    results.foldl (fun s result => s.add [.toolResult result]) s =
      s.add (results.map .toolResult) := by
  induction results generalizing s with
  | nil => exact (s.add_nil).symm
  | cons result results ih =>
    rw [List.foldl_cons, ih, Chat.add_add]
    rfl

/-- The results are stored and yielded one by one. -/
theorem run_yieldToolResults {β : Type} (prevRespType : Option ResponseType)
    (results : List ToolCallResultMessage) (k : Option ResponseType → Body β) (n : ℕ) (s : Chat) :
    ∃ prevRespType', Coroutine.run n (results.foldlM yieldToolResult prevRespType >>= k) s =
      Coroutine.run (n - results.length) (k prevRespType')
        (s.add ((results.map .toolResult).take n)) := by
  refine ⟨results.foldl (fun _ _ => some .toolCallResult) prevRespType, ?_⟩
  rw [Coroutine.run_foldlM (fun (s : Chat) result => s.add [.toolResult result])
    (fun _ _ => some .toolCallResult) fun _ _ _ _ _ => rfl, foldl_store, List.map_take]

/-- What is accumulated is stored as a text, or not at all. -/
theorem run_appendAssistantTextMessage {β : Type} (l : Language) (q : Query) (acc : Accumulated)
    (s : Chat) : ∃ acc' texts, (∀ m ∈ texts, Message.IsText m) ∧
      ∀ n (k : Accumulated → Body β),
        Coroutine.run (n + 1) (appendAssistantTextMessage l q acc >>= k) s =
          Coroutine.run (n + 1) (k acc') (s.add texts) := by
  unfold appendAssistantTextMessage
  split_ifs
  · refine ⟨acc, [], nofun, fun n k => ?_⟩
    rw [Chat.add_nil]
    rfl
  · exact ⟨⟨"", ""⟩, [.outputText (assistantMessageContent l q acc)], by simp [Message.IsText],
      fun n k => rfl⟩

/-- Texts can be stored. -/
theorem Chat.Sound.add_texts (h : s.Sound) {texts : List Message}
    (htexts : ∀ m ∈ texts, Message.IsText m) : (s.add texts).Sound :=
  ⟨h.1.append_texts htexts, h.2⟩

/-- `infer` can be called. -/
theorem Chat.Sound.send (h : s.Sound) : Chat.Sound { s with sent := s.sent ++ [s.messages] } := by
  refine ⟨h.1, fun messages hmessages => ?_⟩
  obtain hsent | hnew := List.mem_append.mp hmessages
  · exact h.2 messages hsent
  · rw [List.mem_singleton.mp hnew]
    exact h.1

/-- Where all calls succeed, the tool phase stores them with as many results as are pulled for. -/
theorem run_toolPhase_of_succeed {β : Type} (l : Language) (prevRespType : Option ResponseType)
    (h : ∀ r ∈ calls, r.Succeeds tools) (k : Option ResponseType → Body β) (n : ℕ) (s : Chat) :
    ∃ prevRespType', Coroutine.run (n + 1) (toolPhase l tools prevRespType calls >>= k) s =
      Coroutine.run (n + 1 - 2 * calls.length) (k prevRespType')
        (s.add (.toolCalls (calls.map Requested.call) ::
          (calls.map fun r => .toolResult r.result).take (n + 1 - calls.length))) := by
  unfold toolPhase
  simp only [bind_assoc, runTools_of_succeed l h, Coroutine.pass_bind]
  rw [run_push]
  -- One pull for each call, then one for each result.
  obtain ⟨prev₁, hcalls⟩ := run_yieldToolCalls prevRespType (calls.map Requested.call)
    (fun prev => (calls.map Requested.result).foldlM yieldToolResult prev >>= k) (n + 1)
    (s.add [.toolCalls (calls.map Requested.call)])
  rw [hcalls, List.length_map]
  obtain ⟨prev₂, hresults⟩ := run_yieldToolResults prev₁ (calls.map Requested.result) k
    (n + 1 - calls.length) (s.add [.toolCalls (calls.map Requested.call)])
  rw [hresults, List.length_map, List.map_map, Chat.add_add, Nat.sub_sub, ← Nat.two_mul]
  exact ⟨prev₂, rfl⟩

/-- Where a call fails, it stores the calls, and none of the results. -/
theorem run_toolPhase_of_fail {β : Type} (l : Language) (prevRespType : Option ResponseType)
    (h : ¬ ∀ r ∈ calls, r.Succeeds tools) (k : Option ResponseType → Body β) (n : ℕ) (s : Chat) :
    (Coroutine.run (n + 1) (toolPhase l tools prevRespType calls >>= k) s).1 =
      s.add [.toolCalls (calls.map Requested.call)] := by
  obtain ⟨e, hends⟩ := runTools_of_fail l h
  unfold toolPhase
  simp only [bind_assoc, hends, Coroutine.ends_bind]
  rw [run_push]
  obtain ⟨prev₁, hcalls⟩ := run_yieldToolCalls prevRespType (calls.map Requested.call)
    (fun _ => (.ends e : Body β)) (n + 1) (s.add [.toolCalls (calls.map Requested.call)])
  rw [hcalls]
  cases n + 1 - (calls.map Requested.call).length with
  | zero => rfl
  | succ n => rfl

/-- The tool phase keeps the conversation well formed exactly when all calls succeed and all results
are pulled for. -/
theorem fine_toolPhase_iff {β : Type} {k : Option ResponseType → Body β} {rest : ℕ → Prop}
    (prevRespType : Option ResponseType) (hs : s.Sound)
    (hk : ∀ n prevRespType s, Chat.Sound s →
      (Fine (Coroutine.run n (k prevRespType) s) ↔ rest n)) (n : ℕ) :
    Fine (Coroutine.run (n + 1) (toolPhase l tools prevRespType calls >>= k) s) ↔
      (∀ r ∈ calls, r.Succeeds tools) ∧ 2 * calls.length ≤ n + 1 ∧
        rest (n + 1 - 2 * calls.length) := by
  have hanswers := answers_results calls
  by_cases hall : ∀ r ∈ calls, r.Succeeds tools
  · obtain ⟨prev, hrun⟩ := run_toolPhase_of_succeed l prevRespType hall k n s
    have hstored := wellFormed_calls_iff hs.1 hanswers (n + 1 - calls.length)
    rw [List.length_map] at hstored
    rw [hrun]
    by_cases hn : 2 * calls.length ≤ n + 1
    · have hsound : (s.add (.toolCalls (calls.map Requested.call) ::
          (calls.map fun r => .toolResult r.result).take (n + 1 - calls.length))).Sound :=
        ⟨hstored.mpr (by omega), hs.2⟩
      rw [hk _ prev _ hsound]
      exact ⟨fun h => ⟨hall, hn, h⟩, fun h => h.2.2⟩
    · -- The consumer has stopped before the last result.
      rw [show n + 1 - 2 * calls.length = 0 by omega, Coroutine.run_zero]
      refine iff_of_false (fun h => ?_) fun h => hn h.2.1
      have hle := hstored.mp h.1.1
      omega
  · -- The calls are stored and their results are not, so there would have to be no calls.
    refine iff_of_false (fun h => ?_) fun h => hall h.1
    have hsound := h.1.1
    rw [run_toolPhase_of_fail l prevRespType hall k n s] at hsound
    have hle := (wellFormed_calls_iff hs.1 hanswers 0).mp hsound
    rw [List.length_map] at hle
    obtain rfl : calls = [] := List.length_eq_zero_iff.mp (by omega)
    exact hall nofun

/-- Where nothing is done, a sound conversation stays sound. -/
theorem fine_run_zero {α : Type} (b : Body α) (hs : s.Sound) : Fine (Coroutine.run 0 b s) := by
  rw [Coroutine.run_zero]
  exact ⟨hs, nofun⟩

/-- A query that ends otherwise than by waiting leaves the conversation as it is. -/
theorem fine_ends {α : Type} {e : QueryEnd} (he : e ≠ .pending) (n : ℕ) (hs : s.Sound) :
    Fine (Coroutine.run n (.ends e : Body α) s) := by
  cases n with
  | zero => exact fine_run_zero _ hs
  | succ n =>
    rw [Coroutine.run_ends]
    exact ⟨hs, fun h => he (Place.ended.inj h)⟩

/-- A query that returns leaves the conversation as it is. -/
theorem fine_pass {α : Type} (a : α) (n : ℕ) (hs : s.Sound) :
    Fine (Coroutine.run n (.pass a : Body α) s) := by
  cases n with
  | zero => exact fine_run_zero _ hs
  | succ n =>
    rw [Coroutine.run_pass]
    exact ⟨hs, nofun⟩

/-- Storing what is accumulated changes nothing about what comes behind. -/
theorem fine_appendAssistantTextMessage_iff {β : Type} {k : Accumulated → Body β} {n : ℕ}
    {P : Prop} (acc : Accumulated)
    (hk : ∀ acc s, Chat.Sound s → (Fine (Coroutine.run n (k acc) s) ↔ P)) (hs : s.Sound) :
    Fine (Coroutine.run n (appendAssistantTextMessage l q acc >>= k) s) ↔ P := by
  cases n with
  | zero =>
    -- Neither is begun.
    have hbehind := hk acc s hs
    rw [Coroutine.run_zero] at hbehind ⊢
    exact hbehind
  | succ n =>
    obtain ⟨acc', texts, htexts, happend⟩ := run_appendAssistantTextMessage (β := β) l q acc s
    rw [happend]
    exact hk acc' _ (hs.add_texts htexts)

/-- The last delta is yielded, and on the next pull stored with what is accumulated. -/
theorem run_lastText {β : Type} (acc : Accumulated) (prevRespType : Option ResponseType)
    (isToolCalled raises reasoning : Bool) (content : String) (deltas : List Delta)
    (k : Option ResponseType × Bool → Body β) (n : ℕ) (s : Chat) : ∃ prevRespType',
    Coroutine.run (n + 1) (readDeltas l q raises acc prevRespType isToolCalled
      (.text content reasoning true :: deltas) >>= k) s =
      Coroutine.run n (appendAssistantTextMessage l q (acc.add content reasoning) >>=
        fun _ => k (prevRespType', isToolCalled)) s := by
  refine ⟨some (if reasoning then .reasoning else .outputText), ?_⟩
  unfold readDeltas
  simp only [if_true, bind_assoc, pure_bind, Coroutine.run_emit]

/-- Without a pull there is nothing to serve. -/
@[simp] theorem servesDeltas_zero (tools : List String) (raises : Bool) (rest : ℕ → Bool → Prop)
    (isToolCalled : Bool) (deltas : List Delta) :
    ServesDeltas tools raises rest 0 isToolCalled deltas := by
  cases deltas with
  | nil => trivial
  | cons delta deltas => trivial

@[simp] theorem servesInfers_zero (tools : List String) (infers : List InferRun) :
    ServesInfers tools 0 infers := by
  cases infers with
  | nil => trivial
  | cons infer infers => exact servesDeltas_zero ..

/-- The deltas of an `infer` keep the conversation well formed exactly when they are served. -/
theorem fine_readDeltas_iff {β : Type} {k : Option ResponseType × Bool → Body β} {raises : Bool}
    {rest : ℕ → Bool → Prop} {deltas : List Delta}
    (hk : ∀ n prevRespType isToolCalled s, Chat.Sound s →
      (Fine (Coroutine.run n (k (prevRespType, isToolCalled)) s) ↔ rest n isToolCalled))
    (acc : Accumulated) (prevRespType : Option ResponseType) (isToolCalled : Bool) (n : ℕ)
    (hs : s.Sound) :
    Fine (Coroutine.run n (readDeltas l q raises acc prevRespType isToolCalled deltas >>= k) s) ↔
      ServesDeltas q.tools raises rest n isToolCalled deltas := by
  induction deltas generalizing acc prevRespType isToolCalled n s with
  | nil =>
    cases n with
    | zero => exact iff_of_true (fine_run_zero _ hs) trivial
    | succ n =>
      unfold readDeltas
      cases raises with
      | true => exact iff_of_true (fine_ends (e := .raised) nofun (n + 1) hs) nofun
      | false => exact (hk (n + 1) prevRespType isToolCalled s hs).trans ⟨fun h _ => h, fun h => h rfl⟩
  | cons delta deltas ih =>
    cases n with
    | zero => exact iff_of_true (fine_run_zero _ hs) trivial
    | succ n =>
      cases delta with
      | toolCalls calls =>
        unfold readDeltas
        simp only [bind_assoc]
        refine fine_appendAssistantTextMessage_iff acc (fun acc' s hs => ?_) hs
        exact fine_toolPhase_iff prevRespType hs
          (fun n prevRespType s hs => ih acc' prevRespType true n hs) n
      | text content reasoning finished =>
        cases finished with
        | true =>
          obtain ⟨prevRespType', hlast⟩ := run_lastText (l := l) (q := q) acc prevRespType
            isToolCalled raises reasoning content deltas k n s
          rw [hlast]
          exact fine_appendAssistantTextMessage_iff _
            (fun _ s hs => hk n prevRespType' isToolCalled s hs) hs
        | false =>
          unfold readDeltas
          exact ih _ _ isToolCalled n hs

/-- The outer loop keeps the conversation well formed exactly when its deltas are served. -/
theorem fine_inferLoop_iff (prevRespType : Option ResponseType) (infers : List InferRun) (n : ℕ)
    (hs : s.Sound) :
    Fine (Coroutine.run n (inferLoop l q prevRespType infers) s) ↔ ServesInfers q.tools n infers := by
  induction infers generalizing prevRespType n s with
  | nil =>
    cases n with
    | zero => exact iff_of_true (fine_run_zero _ hs) trivial
    | succ n => exact iff_of_true (fine_ends (e := .inferring) nofun (n + 1) hs.send) trivial
  | cons infer infers ih =>
    cases n with
    | zero => exact iff_of_true (fine_run_zero _ hs) (servesInfers_zero ..)
    | succ n =>
      refine fine_readDeltas_iff (fun n prevRespType isToolCalled s hs => ?_) ⟨"", ""⟩ prevRespType
        false (n + 1) hs.send
      cases isToolCalled with
      | true => exact (ih prevRespType n hs).trans ⟨fun h _ => h, fun h => h rfl⟩
      | false => exact iff_of_true (fine_pass _ n hs) nofun

/-- A query keeps the conversation well formed exactly when it is served. -/
theorem fine_query_iff (l : Language) (q : Query) (hs : s.Sound) :
    Fine (Coroutine.run q.pulls (query l q) s) ↔ q.Serves := by
  have hraised : Fine (Coroutine.run q.pulls (.ends .raised : Body PUnit) s) :=
    fine_ends (e := .raised) nofun q.pulls hs
  unfold query Query.Serves
  cases q.valid with
  | false => exact iff_of_true hraised nofun
  | true =>
    cases q.alive with
    | false => exact iff_of_true hraised nofun
    | true =>
      simp only [forall_const]
      cases q.pulls with
      | zero => exact iff_of_true (fine_run_zero _ hs) (servesInfers_zero ..)
      | succ n =>
        have huser : (s.add [.user q.message]).Sound := hs.add_texts (by simp [Message.IsText])
        exact fine_inferLoop_iff none q.infers (n + 1) huser

/-! ## The queries of one agent -/

/-- An agent between its queries. -/
structure Session where
  chat : Chat
  /-- Whether a query waits for ever for its tools. -/
  pending : Bool

/-- An agent that has had no query, with its system message if it has one. -/
def Session.initial (systemMessage : Option String) : Session :=
  ⟨⟨systemMessage.toList.map .system, []⟩, false⟩

/-- The query waits for its tools. -/
def isPending : Place QueryEnd PUnit → Bool
  | .ended .pending => true
  | _ => false

/-- A query, as far as its consumer pulls. -/
def step (l : Language) (s : Session) (q : Query) : Option Session :=
  let r := (query l q).run q.pulls s.chat
  some ⟨r.1, s.pending || isPending r.2⟩

/-- Behind each query, the conversations are well formed, and no query waits for ever. -/
def Kept (s : Session) : Prop := s.chat.Sound ∧ s.pending = false

theorem kept_initial (systemMessage : Option String) : Kept (.initial systemMessage) := by
  refine ⟨⟨wellFormed_of_notMem fun calls h => ?_, nofun⟩, rfl⟩
  obtain ⟨content, -, hcontent⟩ := List.mem_map.mp h
  cases hcontent

theorem isPending_eq_false_iff {p : Place QueryEnd PUnit} :
    isPending p = false ↔ p ≠ .ended .pending := by
  unfold isPending
  split <;> simp_all

/-- A query of an agent that is kept keeps it exactly when it is served. -/
theorem kept_step_iff {s s' : Session} (h : Kept s) (hstep : step l s q = some s') :
    Kept s' ↔ q.Serves := by
  obtain rfl := Option.some.inj hstep
  rw [← fine_query_iff l q h.1]
  refine and_congr Iff.rfl ?_
  rw [h.2, Bool.false_or]
  exact isPending_eq_false_iff

/-- In every run of queries on one agent, the conversations stay well formed and no query waits for
ever, exactly when each message with calls that is reached gets its results. -/
theorem meets_serves_iff (l : Language) (systemMessage : Option String) (queries : List Query) :
    Meets (step l) (fun _ q => q.Serves) (.initial systemMessage) queries ↔
      Along (step l) Kept (.initial systemMessage) queries := by
  have hinv : ∀ s (q : Query) s', True → True → step l s q = some s' → True :=
    fun _ _ _ _ _ _ => trivial
  refine (meets_true queries).iff_along hinv ?_ ?_ nofun trivial (kept_initial systemMessage)
  · exact fun s q s' _ h _ hserves hstep => (kept_step_iff h hstep).mpr hserves
  · exact fun s q s' _ h _ hstep hkept => (kept_step_iff h hstep).mp hkept

/-- A query for which `infer` asks for a call of `get_weather`, whose tool raises. -/
def raisingQuery : Query where
  message := "How is the weather?"
  enableReasoning := false
  ignoreReasoningMessages := false
  valid := true
  alive := true
  tools := ["get_weather"]
  infers := [⟨[.toolCalls [⟨⟨"call_0", "get_weather", .null⟩, .raises⟩]], false⟩]
  pulls := 2

/-- The same query with a tool that returns, whose consumer stops behind the call. -/
def stoppedQuery : Query :=
  { raisingQuery with
    infers := [⟨[.toolCalls [⟨⟨"call_0", "get_weather", .null⟩, .returns "sunny"⟩]], false⟩]
    pulls := 1 }

/-- Where the tool raises, the query waits for ever in JavaScript, and leaves the call without its
result in Python. Where the consumer stops behind the call, it has no result either. -/
theorem queries_not_kept :
    ((query .javascript raisingQuery).run raisingQuery.pulls ⟨[], []⟩).2 = .ended .pending ∧
      ¬ Along (step .javascript) Kept (.initial none) [raisingQuery] ∧
      ¬ Along (step .python) Kept (.initial none) [raisingQuery] ∧
      ¬ Along (step .python) Kept (.initial none) [stoppedQuery] := by
  have hraising : ¬ raisingQuery.Serves := fun h => by
    obtain ⟨hsucceed, -⟩ := h rfl rfl
    obtain ⟨-, content, hcontent⟩ := hsucceed _ (List.mem_singleton.mpr rfl)
    cases hcontent
  have hstopped : ¬ stoppedQuery.Serves := fun h => by
    obtain ⟨-, hpulls, -⟩ := h rfl rfl
    exact absurd hpulls (by decide)
  refine ⟨rfl, fun h => ?_, fun h => ?_, fun h => ?_⟩
  · exact hraising ((kept_step_iff (kept_initial none) rfl).mp (h.2 _ rfl))
  · exact hraising ((kept_step_iff (kept_initial none) rfl).mp (h.2 _ rfl))
  · exact hstopped ((kept_step_iff (kept_initial none) rfl).mp (h.2 _ rfl))

end Ailoy.Agent
