import Ailoy.Bindings.AgentQuery

/-!
# What a query remembers

The messages that `Agent.query` stores are a function of what it has yielded (`remembered`): behind
each message with calls and at the end of each `infer`, the texts since the last stored one make a
message, unless they are blank. `history_shown` says so of every query that is pulled up to its end.

The accumulators of the source are emptied only where a text is stored. `Accumulated.Holds` relates
them to what was yielded since then, and the loops keep it.
-/

namespace Ailoy.Agent

/-! ## What is shown -/

/-- What a query yields in a row. -/
inductive Shown
  | text (content : String) (reasoning : Bool)
  /-- The calls of a message, and then their results. -/
  | batch (calls : List ToolCall) (results : List ToolCallResultMessage)

/-- A response without `is_type_switched`. -/
def Response.shown (r : Response) : ResponseType × ResponseContent := (r.type, r.content)

/-- The responses, one by one. -/
def Shown.responses : Shown → List (ResponseType × ResponseContent)
  | .text content reasoning =>
    [(if reasoning then .reasoning else .outputText, .text content)]
  | .batch calls results =>
    calls.map (fun call => (.toolCall, .toolCall call)) ++
      results.map fun result => (.toolCallResult, .toolCallResult result)

/-- What an `infer` shows, up to the text that finishes it. -/
def shownOf : List Delta → List Shown
  | [] => []
  | .toolCalls calls :: deltas =>
    .batch (calls.map Requested.call) (calls.map Requested.result) :: shownOf deltas
  | .text content reasoning finished :: deltas =>
    .text content reasoning :: if finished then [] else shownOf deltas

/-- There are calls, so there is another round. -/
def isToolCalled (shown : List Shown) : Bool :=
  shown.any fun
    | .text _ _ => false
    | .batch _ _ => true

/-- What the rounds of a query show. -/
def rounds : List InferRun → List (List Shown)
  | [] => []
  | infer :: infers =>
    shownOf infer.deltas :: if isToolCalled (shownOf infer.deltas) then rounds infers else []

/-- The `infer` ends with `stop`, `length` or `error`, or with its calls. -/
def InferRun.Ends (infer : InferRun) : Prop :=
  (∃ content reasoning, .text content reasoning true ∈ infer.deltas) ∨
    ∃ calls, infer.deltas.getLast? = some (.toolCalls calls)

/-! ## What is remembered -/

section Remember

variable (l : Language) (q : Query)

/-- The reasoning, or the output text, of what is shown. -/
def textOf (reasoning : Bool) : List Shown → String
  | [] => ""
  | .text content r :: shown =>
    (if r = reasoning then content else "") ++ textOf reasoning shown
  | .batch _ _ :: shown => textOf reasoning shown

/-- The reasoning in front of a text, where it is enabled, not ignored and not blank. -/
def thinkBlock (since : List Shown) : String :=
  if q.enableReasoning ∧ ¬ q.ignoreReasoningMessages ∧ l.strip (textOf true since) ≠ "" then
    "<think>\n" ++ l.strip (textOf true since) ++ "\n</think>\n\n"
  else ""

/-- The message for the texts since the last one, unless they are blank. -/
def assistantText (since : List Shown) : List Message :=
  if l.strip (textOf false since) = "" then []
  else [.outputText (thinkBlock l q since ++ l.strip (textOf false since))]

/-- What a round leaves in the history. `since` is what it has shown since the last text that was
stored. -/
def remembered (since : List Shown) : List Shown → List Message
  | [] => assistantText l q since
  | .text content reasoning :: shown => remembered (since ++ [.text content reasoning]) shown
  | .batch calls results :: shown =>
    assistantText l q since ++ .toolCalls calls :: results.map .toolResult ++
      remembered (if assistantText l q since = [] then since else []) shown

end Remember

/-! ## The accumulators -/

variable {l : Language} {q : Query} {since : List Shown} {acc : Accumulated}

theorem textOf_append (reasoning : Bool) (shown shown' : List Shown) :
    textOf reasoning (shown ++ shown') = textOf reasoning shown ++ textOf reasoning shown' := by
  induction shown with
  | nil => exact String.empty_append.symm
  | cons x shown ih =>
    cases x with
    | text content r =>
      rw [List.cons_append, textOf, textOf, ih, String.append_assoc]
    | batch calls results => exact ih

/-- The accumulators have the texts since the last one that was stored. -/
structure Accumulated.Holds (acc : Accumulated) (since : List Shown) : Prop where
  reasoning : acc.reasoning = textOf true since
  outputText : acc.outputText = textOf false since

theorem Accumulated.holds_nil : Accumulated.Holds ⟨"", ""⟩ [] := ⟨rfl, rfl⟩

/-- A text that is yielded is accumulated. -/
theorem Accumulated.Holds.add (h : acc.Holds since) (content : String) (reasoning : Bool) :
    (acc.add content reasoning).Holds (since ++ [.text content reasoning]) := by
  have hone : ∀ r, textOf r [.text content reasoning] = if reasoning = r then content else "" :=
    fun r => String.append_empty
  constructor
  · rw [textOf_append, hone, ← h.reasoning]
    cases reasoning with
    | true => rfl
    | false => exact String.append_empty.symm
  · rw [textOf_append, hone, ← h.outputText]
    cases reasoning with
    | true => exact String.append_empty.symm
    | false => rfl

/-- The content of the message has the think block in front. -/
theorem assistantMessageContent_eq (h : acc.Holds since) :
    assistantMessageContent l q acc = thinkBlock l q since ++ l.strip (textOf false since) := by
  unfold assistantMessageContent thinkBlock
  rw [h.reasoning, h.outputText]
  by_cases hthink : q.enableReasoning ∧ ¬ q.ignoreReasoningMessages ∧
      l.strip (textOf true since) ≠ ""
  · rw [if_pos hthink, if_pos (by simpa [and_assoc] using hthink)]
  · rw [if_neg hthink, if_neg (by simpa [and_assoc] using hthink), String.empty_append]

/-- The texts since the last one are stored, and the accumulators are emptied only then. -/
theorem finish_appendAssistantTextMessage (h : acc.Holds since) (s : Chat) : ∃ acc',
    (appendAssistantTextMessage l q acc).finish s =
        ⟨[], s.add (assistantText l q since), .ok acc'⟩ ∧
      acc'.Holds (if assistantText l q since = [] then since else []) := by
  unfold appendAssistantTextMessage assistantText
  rw [h.outputText]
  by_cases hblank : l.strip (textOf false since) = ""
  · rw [if_pos hblank, if_pos hblank, if_pos rfl, Chat.add_nil]
    exact ⟨acc, rfl, h⟩
  · rw [if_neg hblank, if_neg hblank, if_neg (List.cons_ne_nil _ _),
      ← assistantMessageContent_eq h]
    exact ⟨⟨"", ""⟩, rfl, Accumulated.holds_nil⟩

/-! ## The loops -/

/-- The tool phase stores and yields the calls and the results, where the calls succeed. -/
theorem finish_toolPhase_of_succeed {tools : List String} {calls : List Requested}
    (h : ∀ r ∈ calls, r.Succeeds tools) (prevRespType : Option ResponseType) (s : Chat) :
    ∃ rs prevRespType', (toolPhase l tools prevRespType calls).finish s =
        ⟨rs, s.add (.toolCalls (calls.map Requested.call) ::
          (calls.map Requested.result).map .toolResult), .ok prevRespType'⟩ ∧
      rs.map Response.shown =
        (Shown.batch (calls.map Requested.call) (calls.map Requested.result)).responses := by
  let s₁ := s.add [.toolCalls (calls.map Requested.call)]
  have hcall : ∀ (prev : Option ResponseType) call (s : Chat), ∃ r,
      (yieldToolCall prev call).finish s = ⟨[r], s, .ok (some .toolCall)⟩ ∧
        r.shown = (.toolCall, .toolCall call) := fun _ _ _ => ⟨_, rfl, rfl⟩
  have hresult : ∀ (prev : Option ResponseType) result (s : Chat), ∃ r,
      (yieldToolResult prev result).finish s =
          ⟨[r], s.add [.toolResult result], .ok (some .toolCallResult)⟩ ∧
        r.shown = (.toolCallResult, .toolCallResult result) := fun _ _ _ => ⟨_, rfl, rfl⟩
  obtain ⟨rs₁, hcalls, hshown₁⟩ := Coroutine.finish_foldlM (fun s _ => s) (fun _ _ => some .toolCall)
    Response.shown _ hcall (calls.map Requested.call) prevRespType s₁
  obtain ⟨rs₂, hresults, hshown₂⟩ := Coroutine.finish_foldlM _ (fun _ _ => some .toolCallResult)
    Response.shown _ hresult (calls.map Requested.result)
    ((calls.map Requested.call).foldl (fun _ _ => some .toolCall) prevRespType) s₁
  rw [List.foldl_fixed] at hcalls
  rw [foldl_store, Chat.add_add] at hresults
  unfold toolPhase
  rw [runTools_of_succeed l h]
  refine ⟨rs₁ ++ rs₂, _, Coroutine.finish_bind_eq_ok_iff.mpr ⟨[], s₁, ⟨⟩, _, rfl,
    Coroutine.finish_bind_eq_ok_iff.mpr ⟨rs₁, s₁, _, rs₂, hcalls, hresults, rfl⟩, rfl⟩, ?_⟩
  rw [List.map_append, hshown₁, hshown₂]
  rfl

/-- A tool phase that passes a value on has called its tools. -/
theorem succeed_of_finish {tools : List String} {prevRespType prevRespType' : Option ResponseType}
    {calls : List Requested} {s s' : Chat} {rs : List Response}
    (h : (toolPhase l tools prevRespType calls).finish s = ⟨rs, s', .ok prevRespType'⟩) :
    ∀ r ∈ calls, r.Succeeds tools := by
  by_contra hfails
  obtain ⟨e, hends⟩ := runTools_of_fail l hfails
  unfold toolPhase at h
  obtain ⟨_, _, _, _, -, h, -⟩ := Coroutine.finish_bind_eq_ok_iff.mp h
  obtain ⟨_, _, _, _, -, h, -⟩ := Coroutine.finish_bind_eq_ok_iff.mp h
  obtain ⟨_, _, _, _, hrun, -, -⟩ := Coroutine.finish_bind_eq_ok_iff.mp h
  rw [hends] at hrun
  cases hrun

/-- The stream ends with a text that finishes it, or with calls, and where nothing of it is left, there
is no text to be stored. -/
def EndsFrom (l : Language) (q : Query) (since : List Shown) (deltas : List Delta) : Prop :=
  (∃ content reasoning, .text content reasoning true ∈ deltas) ∨
    (∃ calls, deltas.getLast? = some (.toolCalls calls)) ∨
    deltas = [] ∧ assistantText l q since = []

/-- What is left of a stream behind its first delta ends as the stream does. -/
theorem EndsFrom.tail {delta : Delta} {deltas : List Delta} {since since' : List Shown}
    (h : EndsFrom l q since (delta :: deltas))
    (hdelta : ∀ content reasoning, delta ≠ .text content reasoning true)
    (hcalls : ∀ calls, delta = .toolCalls calls → assistantText l q since' = []) :
    EndsFrom l q since' deltas := by
  rcases h with ⟨content, reasoning, hmem⟩ | ⟨calls, hlast⟩ | ⟨hnil, -⟩
  · obtain hhead | htail := List.mem_cons.mp hmem
    · exact absurd hhead.symm (hdelta content reasoning)
    · exact .inl ⟨content, reasoning, htail⟩
  · cases deltas with
    | nil => exact .inr (.inr ⟨rfl, hcalls calls (Option.some.inj hlast)⟩)
    | cons delta' deltas =>
      rw [List.getLast?_cons_cons] at hlast
      exact .inr (.inl ⟨calls, hlast⟩)
  · cases hnil

/-- Where the texts are stored, none is left. -/
theorem assistantText_kept (l : Language) (q : Query) (since : List Shown) :
    assistantText l q (if assistantText l q since = [] then since else []) = [] := by
  split_ifs with h
  · exact h
  · cases l <;> rfl

/-- An `infer` shows its deltas and leaves in the history what it has shown, by induction on the
deltas. -/
theorem finish_readDeltas {raises : Bool} {deltas : List Delta} (hends : EndsFrom l q since deltas)
    (hacc : acc.Holds since) {prevRespType prevRespType' : Option ResponseType}
    {called called' : Bool} {s s' : Chat} {rs : List Response}
    (h : (readDeltas l q raises acc prevRespType called deltas).finish s =
      ⟨rs, s', .ok (prevRespType', called')⟩) :
    rs.map Response.shown = (shownOf deltas).flatMap Shown.responses ∧
      s'.messages = s.messages ++ remembered l q since (shownOf deltas) ∧
      called' = (called || isToolCalled (shownOf deltas)) := by
  induction deltas generalizing acc since prevRespType called s rs with
  | nil =>
    obtain ⟨_, _, hmem⟩ | ⟨_, hlast⟩ | ⟨-, htext⟩ := hends
    · cases hmem
    · cases hlast
    · unfold readDeltas at h
      cases raises with
      | true => cases h
      | false =>
        cases h
        rw [shownOf, remembered, htext, List.append_nil]
        exact ⟨rfl, rfl, (Bool.or_false _).symm⟩
  | cons delta deltas ih =>
    cases delta with
    | toolCalls calls =>
      unfold readDeltas at h
      obtain ⟨acc', happend, hacc'⟩ := finish_appendAssistantTextMessage (l := l) (q := q) hacc s
      rw [Coroutine.finish_bind_of_silent happend] at h
      obtain ⟨rs₁, s₁, prev₁, rs₂, hphase, h, rfl⟩ := Coroutine.finish_bind_eq_ok_iff.mp h
      have hsucceed := succeed_of_finish hphase
      obtain ⟨rs₃, prev₂, hphase', hbatch⟩ := finish_toolPhase_of_succeed (l := l) hsucceed
        prevRespType (s.add (assistantText l q since))
      rw [hphase'] at hphase
      cases hphase
      have htail : EndsFrom l q (if assistantText l q since = [] then since else []) deltas :=
        hends.tail (fun _ _ h => Delta.noConfusion h) fun _ _ => assistantText_kept l q since
      obtain ⟨hshown, hmessages, hcalled⟩ := ih htail hacc' h
      refine ⟨?_, ?_, ?_⟩
      · rw [List.map_append, hbatch, hshown]
        rfl
      · rw [hmessages]
        simp [Chat.add, shownOf, remembered]
      · rw [hcalled]
        simp [shownOf, isToolCalled]
    | text content reasoning finished =>
      unfold readDeltas at h
      obtain ⟨rs', hrest, rfl⟩ := Coroutine.finish_emit_eq_ok_iff.mp h
      have hadd := hacc.add content reasoning
      cases finished with
      | true =>
        obtain ⟨acc', happend, -⟩ := finish_appendAssistantTextMessage (l := l) (q := q) hadd s
        rw [if_pos rfl, Coroutine.finish_bind_of_silent happend] at hrest
        cases hrest
        refine ⟨?_, rfl, (Bool.or_false _).symm⟩
        cases reasoning <;> rfl
      | false =>
        have htail : EndsFrom l q (since ++ [.text content reasoning]) deltas := by
          refine hends.tail (fun content' reasoning' h => ?_) fun calls h => ?_
          · cases h
          · cases h
        obtain ⟨hshown, hmessages, hcalled⟩ := ih htail hadd hrest
        refine ⟨?_, hmessages, hcalled⟩
        rw [List.map_cons, hshown]
        cases reasoning <;> rfl

/-- The rounds of a query show and leave what their `infer`s do. -/
theorem finish_inferLoop {infers : List InferRun} (hends : ∀ infer ∈ infers, infer.Ends)
    {prevRespType : Option ResponseType} {s s' : Chat} {rs : List Response}
    (h : (inferLoop l q prevRespType infers).finish s = ⟨rs, s', .ok ⟨⟩⟩) :
    rs.map Response.shown = (rounds infers).flatten.flatMap Shown.responses ∧
      s'.messages = s.messages ++ (rounds infers).flatMap (remembered l q []) := by
  induction infers generalizing prevRespType s rs with
  | nil => cases h
  | cons infer infers ih =>
    obtain ⟨hinfer, hinfers⟩ := List.forall_mem_cons.mp hends
    have hsend : (callInfer : Body PUnit).finish s =
      ⟨[], { s with sent := s.sent ++ [s.messages] }, .ok ⟨⟩⟩ := rfl
    unfold inferLoop at h
    rw [Coroutine.finish_bind_of_silent hsend] at h
    obtain ⟨rs₁, s₁, ⟨prev₁, called⟩, rs₂, hread, hrest, rfl⟩ :=
      Coroutine.finish_bind_eq_ok_iff.mp h
    obtain ⟨hshown, hmessages, hcalled⟩ :=
      finish_readDeltas (hinfer.imp id .inl) Accumulated.holds_nil hread
    rw [Bool.false_or] at hcalled
    subst hcalled
    dsimp only at hrest
    rw [rounds]
    by_cases hagain : isToolCalled (shownOf infer.deltas) = true
    · rw [if_pos hagain] at hrest ⊢
      obtain ⟨hshown', hmessages'⟩ := ih hinfers hrest
      refine ⟨?_, ?_⟩
      · rw [List.map_append, hshown, hshown', List.flatten_cons, List.flatMap_append]
      · rw [hmessages', hmessages, List.append_assoc, List.flatMap_cons]
    · rw [if_neg hagain] at hrest ⊢
      cases hrest
      refine ⟨?_, ?_⟩
      · rw [List.append_nil, hshown, List.flatten_singleton]
      · rw [hmessages, List.flatMap_singleton]

/-- The history of a query that is pulled up to its end is what it has shown: behind the message of
the user, each round leaves its calls and results where they were yielded, and in front of calls
and at its end the text since the last one. -/
theorem history_shown (l : Language) (q : Query) {s s' : Chat} {responses : List Response}
    (hends : ∀ infer ∈ q.infers, infer.Ends)
    (h : (query l q).finish s = ⟨responses, s', .ok ⟨⟩⟩) :
    responses.map Response.shown = (rounds q.infers).flatten.flatMap Shown.responses ∧
      s'.messages = s.messages ++
        .user q.message :: (rounds q.infers).flatMap (remembered l q []) ∧
      Coroutine.run (responses.length + 1) (query l q) s = (s', .passed 1 ⟨⟩) := by
  have hrun := Coroutine.run_finish (query l q) 0 s
  rw [h] at hrun
  unfold query at h
  cases hvalid : q.valid with
  | false =>
    rw [hvalid] at h
    cases h
  | true =>
    cases halive : q.alive with
    | false =>
      rw [hvalid, halive] at h
      cases h
    | true =>
      have hpush : (push (.user q.message)).finish s = ⟨[], s.add [.user q.message], .ok ⟨⟩⟩ := rfl
      rw [hvalid, halive, if_neg nofun, if_neg nofun, Coroutine.finish_bind_of_silent hpush] at h
      obtain ⟨hshown, hmessages⟩ := finish_inferLoop hends h
      refine ⟨hshown, ?_, hrun⟩
      rw [hmessages, Chat.add, List.append_assoc]
      rfl

/-- A query in which `infer` thinks, asks for the weather, and says it in another round. -/
def sunnyQuery : Query where
  message := "How is the weather?"
  enableReasoning := true
  ignoreReasoningMessages := false
  valid := true
  alive := true
  tools := ["get_weather"]
  infers := [
    ⟨[.text "Look outside." true false, .text " Let me see. " false false,
      .toolCalls [⟨⟨"call_0", "get_weather", .null⟩, .returns "sunny"⟩]], false⟩,
    ⟨[.text "It is " false false, .text "sunny.\n" false true], false⟩]
  pulls := 10

theorem history_shown_sunny : ∃ responses s',
    (query .python sunnyQuery).finish ⟨[], []⟩ = ⟨responses, s', .ok ⟨⟩⟩ ∧
      responses.map Response.shown =
        (rounds sunnyQuery.infers).flatten.flatMap Shown.responses ∧
      s'.messages = [.user "How is the weather?",
        .outputText "<think>\nLook outside.\n</think>\n\nLet me see.",
        .toolCalls [⟨"call_0", "get_weather", .null⟩],
        .toolResult ⟨"get_weather", "call_0", "sunny"⟩,
        .outputText "It is sunny."] := by
  have hends : ∀ infer ∈ sunnyQuery.infers, infer.Ends := by
    simp [sunnyQuery, InferRun.Ends]
  obtain ⟨hshown, -, -⟩ := history_shown .python sunnyQuery (s := ⟨[], []⟩) hends rfl
  exact ⟨_, _, rfl, hshown, rfl⟩

end Ailoy.Agent
