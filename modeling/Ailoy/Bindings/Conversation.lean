import Ailoy.Core.Value
import Mathlib.Data.List.Forall2

/-!
# The conversation of an agent

The messages that an `Agent` stores (`bindings/python/ailoy/agent.py`,
`bindings/js-node/src/agent.ts`), and when they are well formed: the results of the calls of a message
come right behind it, one for each call, in their order (`WellFormed`). `wellFormed_calls_iff` says
when a message with calls and some of their results can be added.
-/

namespace Ailoy.Agent

/-- An element of `tool_calls`. -/
structure ToolCall where
  id : String
  /-- `function.name`. -/
  name : String
  /-- `function.arguments`. -/
  arguments : Value

structure ToolCallResultMessage where
  name : String
  toolCallId : String
  content : String

inductive Message
  | system (content : String)
  | user (content : String)
  /-- `AIOutputTextMessage`. -/
  | outputText (content : String)
  /-- `AIToolCallMessage`. -/
  | toolCalls (calls : List ToolCall)
  | toolResult (result : ToolCallResultMessage)

namespace Message

/-- The message has no calls, and is no result of one. -/
def IsText : Message → Prop
  | .system _ | .user _ | .outputText _ => True
  | .toolCalls _ | .toolResult _ => False

/-- The message is the result of a call. -/
def Answers (call : ToolCall) : Message → Prop
  | .toolResult result => result.toolCallId = call.id
  | _ => False

/-- The message is the result of some call. -/
def IsResult : Message → Prop
  | .toolResult _ => True
  | _ => False

theorem Answers.isResult {call : ToolCall} {m : Message} (h : m.Answers call) : m.IsResult := by
  cases m with
  | toolResult result => trivial
  | _ => exact h.elim

theorem IsText.not_isResult {m : Message} (h : m.IsText) : ¬ m.IsResult := by
  cases m with
  | toolResult result => exact h.elim
  | _ => exact id

end Message

/-- Behind each message with calls, their results come one for each, and no more. -/
def WellFormed (messages : List Message) : Prop :=
  ∀ pre calls post, messages = pre ++ .toolCalls calls :: post →
    ∃ results rest, post = results ++ rest ∧
      List.Forall₂ (fun call m => m.Answers call) calls results ∧ ∀ m ∈ rest.head?, ¬ m.IsResult

/-- Messages without calls are well formed. -/
theorem wellFormed_of_notMem {ms : List Message} (h : ∀ calls, .toolCalls calls ∉ ms) :
    WellFormed ms := by
  rintro pre calls post rfl
  exact absurd (by simp) (h calls)

/-- The results of calls are results. -/
theorem isResult_of_answers {calls : List ToolCall} {results : List Message}
    (hanswers : List.Forall₂ (fun call m => m.Answers call) calls results) :
    ∀ m ∈ results, m.IsResult := by
  induction hanswers with
  | nil => nofun
  | cons hm _ ih => exact List.forall_mem_cons.mpr ⟨hm.isResult, ih⟩

/-- A message with calls and their results is well formed. -/
theorem wellFormed_answered {calls : List ToolCall} {results : List Message}
    (hanswers : List.Forall₂ (fun call m => m.Answers call) calls results) :
    WellFormed (.toolCalls calls :: results) := by
  intro pre calls' post heq
  cases pre with
  | nil =>
    obtain ⟨rfl, rfl⟩ : calls = calls' ∧ results = post := by simpa using heq
    exact ⟨results, [], (List.append_nil _).symm, hanswers, nofun⟩
  | cons m pre =>
    obtain ⟨rfl, rfl⟩ : .toolCalls calls = m ∧ results = pre ++ .toolCalls calls' :: post := by
      simpa using heq
    exact (isResult_of_answers hanswers (.toolCalls calls') (by simp)).elim

/-- What can be added is well formed on its own, and does not begin with a result. -/
theorem WellFormed.append {ms ms' : List Message} (h : WellFormed ms) (h' : WellFormed ms')
    (hhead : ∀ m ∈ ms'.head?, ¬ m.IsResult) : WellFormed (ms ++ ms') := by
  intro pre calls post heq
  obtain ⟨front, rfl, hms⟩ | ⟨back, hpre, hback⟩ := List.append_eq_append_iff.mp heq
  · exact h' front calls post hms
  · -- The message with the calls is the first of the new ones, or one of the old ones.
    cases back with
    | nil => exact h' [] calls post hback.symm
    | cons m back =>
      obtain ⟨rfl, rfl⟩ : Message.toolCalls calls = m ∧ post = back ++ ms' := by
        simpa using hback
      obtain ⟨results, rest, rfl, hanswers, hrest⟩ := h pre calls back hpre
      refine ⟨results, rest ++ ms', List.append_assoc .., hanswers, fun m hm => ?_⟩
      cases rest with
      | nil => exact hhead m hm
      | cons x rest => exact hrest m hm

/-- Texts can be added. -/
theorem WellFormed.append_texts {ms texts : List Message} (h : WellFormed ms)
    (htexts : ∀ m ∈ texts, m.IsText) : WellFormed (ms ++ texts) :=
  h.append (wellFormed_of_notMem fun _ hcalls => htexts _ hcalls)
    fun m hm => (htexts m (List.mem_of_mem_head? hm)).not_isResult

/-- A message with calls can be added with all of their results, and not with less. -/
theorem wellFormed_calls_iff {ms results : List Message} {calls : List ToolCall}
    (h : WellFormed ms) (hanswers : List.Forall₂ (fun call m => m.Answers call) calls results)
    (n : ℕ) : WellFormed (ms ++ .toolCalls calls :: results.take n) ↔ calls.length ≤ n := by
  have hlength := hanswers.length_eq
  constructor
  · -- The results behind the calls are among the first `n`.
    intro h'
    obtain ⟨results', rest, htake, hanswers', -⟩ := h' ms calls _ rfl
    have hlength' := hanswers'.length_eq
    have htake := congrArg List.length htake
    rw [List.length_take, List.length_append] at htake
    omega
  · intro hn
    rw [List.take_of_length_le (by omega)]
    exact h.append (wellFormed_answered hanswers) fun m hm => by
      obtain rfl : .toolCalls calls = m := by simpa using hm
      exact id

end Ailoy.Agent
