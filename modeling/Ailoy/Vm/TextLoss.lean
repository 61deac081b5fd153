import Ailoy.Lib.Erasure
import Ailoy.Vm.OutputModes

/-!
# Text that gets lost

A request whose texts are no markers stays in the output mode that it starts in. In a step the
callback keeps one content, that of the last text, and the final output turns the content into a
newline. So of the texts of a request the client receives the last one of each step before the final
one, unless the output mode hides it. `pieces` are the texts with what becomes of them, and the
client has all of the text up to a newline exactly when what is lost is at most two newlines with
nothing but newlines behind it (`text_kept_iff`).
-/

namespace Ailoy

open Infer (InferCall Sent)

variable {lib : EngineLibrary} {template : ChatTemplateEngine}

/-! ## The texts of a request -/

namespace EngineLibrary

/-- A streamer behind the tokens of outputs without a finish reason. -/
def putAll (lib : EngineLibrary) (s : lib.TextStreamer) (idss : List (List ℤ)) : lib.TextStreamer :=
  idss.foldl (fun s ids => (lib.put s ids).1) s

/-- The texts of steps without a finish reason, step by step. -/
def stepChunks (lib : EngineLibrary) (s : lib.TextStreamer) : List EngineStep → List (List Text)
  | [] => []
  | step :: steps =>
    let idss := tokenIds step.callbacks.flatten
    lib.chunks s idss :: lib.stepChunks (lib.putAll s idss) steps

theorem chunks_append (s : lib.TextStreamer) (idss idss' : List (List ℤ)) :
    lib.chunks s (idss ++ idss') = lib.chunks s idss ++ lib.chunks (lib.putAll s idss) idss' := by
  induction idss generalizing s with
  | nil => rfl
  | cons ids idss ih =>
    rw [List.cons_append, chunks, ih, chunks, List.cons_append]
    rfl

end EngineLibrary

/-- The client is shown texts in this output mode. -/
def shown (ignoreReasoningMessages : Bool) (mode : OutputMode) : Bool :=
  mode ≠ .toolCall && !(ignoreReasoningMessages && mode = .reasoning)

/-- The texts that are not empty. -/
def spoken (texts : List Text) : List Text := texts.filter fun text => !text.isEmpty

/-- The texts of a step, kept when they are shown and only empty ones follow. -/
def marks (shown : Bool) : List Text → List (Text × Bool)
  | [] => []
  | text :: texts => (text, shown && (spoken texts).isEmpty) :: marks shown texts

theorem whole_marks (shown : Bool) (texts : List Text) :
    Erasure.whole (marks shown texts) = texts.flatten := by
  induction texts with
  | nil => rfl
  | cons text texts ih => rw [marks, Erasure.whole_cons, ih, List.flatten_cons]

/-- Of a step that is not shown, nothing is kept. -/
theorem kept_marks_false (texts : List Text) : Erasure.kept (marks false texts) = [] := by
  induction texts with
  | nil => rfl
  | cons text texts ih => rw [marks, Bool.false_and, Erasure.kept_cons_false, ih]

/-- Of a step that is shown, the last text is kept. -/
theorem kept_marks_true (texts : List Text) :
    Erasure.kept (marks true texts) = (spoken texts).getLast?.getD [] := by
  induction texts with
  | nil => rfl
  | cons text texts ih =>
    have hcons : spoken (text :: texts) =
        if text.isEmpty then spoken texts else text :: spoken texts := by
      unfold spoken
      rw [List.filter_cons]
      cases text.isEmpty <;> rfl
    rw [marks, Bool.true_and, hcons]
    cases hlast : spoken texts with
    | nil =>
      rw [List.isEmpty_nil, Erasure.kept_cons_true, ih, hlast]
      cases text with
      | nil => rfl
      | cons b text => exact List.append_nil _
    | cons t ts =>
      rw [List.isEmpty_cons, Erasure.kept_cons_false, ih, hlast]
      cases text.isEmpty with
      | true => rfl
      | false => simp [List.getLast?_cons_cons]

/-! ## What a step delivers -/

/-- The texts that become contents in an output mode. -/
def visible (mode : OutputMode) (texts : List Text) : List Text :=
  if mode = .toolCall then [] else spoken texts

theorem visible_append (mode : OutputMode) (texts texts' : List Text) :
    visible mode (texts ++ texts') = visible mode texts ++ visible mode texts' := by
  unfold visible spoken
  split_ifs
  · rfl
  · exact List.filter_append ..

namespace Reading

theorem readAll_streamer (v : Reading lib) (idss : List (List ℤ)) :
    (v.readAll template idss).streamer = lib.putAll v.streamer idss := by
  induction idss generalizing v with
  | nil => rfl
  | cons ids idss ih => exact ih (v.read template none ids).1

/-- A text that is no marker leaves the output mode. -/
theorem read_mode {v : Reading lib} {ids : List ℤ}
    (h : ¬ template.IsMarker (lib.put v.streamer ids).2) :
    (v.read template none ids).1.output.mode = v.output.mode := by
  show (v.output.readChoice lib template none (lib.put v.streamer ids).2).1.mode = v.output.mode
  rw [OutputState.readChoice_unmarked v.output none h]
  by_cases hmode : v.output.mode = .toolCall
  · rw [if_pos hmode]
  · rw [if_neg hmode]

/-- Texts that are no markers leave the output mode. -/
theorem readAll_mode {v : Reading lib} {idss : List (List ℤ)}
    (h : ∀ t ∈ lib.chunks v.streamer idss, ¬ template.IsMarker t) :
    (v.readAll template idss).output.mode = v.output.mode := by
  induction idss generalizing v with
  | nil => rfl
  | cons ids idss ih =>
    have hhead := read_mode (h _ List.mem_cons_self)
    have htail := ih (v := (v.read template none ids).1) fun t ht =>
      h t (List.mem_cons_of_mem _ ht)
    exact htail.trans hhead

end Reading

/-- The response of a step behind texts that became contents. -/
def said (reasoning : Bool) (texts : List Text) : ResponseState :=
  match texts.getLast? with
  | none => ⟨none, none⟩
  | some text => ⟨some ⟨"assistant", some text, reasoning, []⟩, none⟩

/-- A response that says a text. -/
def saying (requestId : String) (text : Text) : StreamResponse := ⟨requestId, [⟨none, some text⟩]⟩

/-- One more text replaces the content. -/
theorem putChoice_said (mode : OutputMode) (uuid : ℕ → String) (drawn : ℕ) (texts : List Text)
    (text : Text) :
    (said (mode = .reasoning) texts).putChoice lib mode uuid drawn ⟨none, some text⟩ =
      .ok (said (mode = .reasoning) (texts ++ [text]), drawn) := by
  unfold said ResponseState.putChoice
  rw [List.getLast?_concat]
  cases texts.getLast? with
  | none => simp
  | some t => simp

namespace MlcLlmEngine

variable {e : MlcLlmEngine lib} {requestId : String} {v : Reading lib}

/-- The response for a text that is no marker. -/
theorem responseOf_unmarked {ids : List ℤ} (h : ¬ template.IsMarker (lib.put v.streamer ids).2) :
    responseOf requestId (v.read template none ids).2 =
      (visible v.output.mode [(lib.put v.streamer ids).2]).map (saying requestId) := by
  show responseOf requestId (v.output.readChoice lib template none (lib.put v.streamer ids).2).2 = _
  rw [OutputState.readChoice_unmarked v.output none h]
  unfold visible spoken
  by_cases hmode : v.output.mode = .toolCall
  · rw [if_pos hmode, if_pos hmode]
    rfl
  · rw [if_neg hmode, if_neg hmode]
    cases (lib.put v.streamer ids).2 with
    | nil => rfl
    | cons b text => rfl

variable (template) in
/-- The responses for texts that are no markers. -/
theorem getResponse_unmarked (h : e.Reads requestId v) {ds : List StreamOutput}
    (htexts : ∀ d ∈ ds, d.IsText requestId)
    (hplain : ∀ t ∈ lib.chunks v.streamer (tokenIds ds), ¬ template.IsMarker t) :
    ∃ e', e.getResponseFromStreamOutput template ds = .ok (e',
        (visible v.output.mode (lib.chunks v.streamer (tokenIds ds))).map (saying requestId)) ∧
      e'.Reads requestId (v.readAll template (tokenIds ds)) ∧ e'.responseMap = e.responseMap := by
  induction ds generalizing e v with
  | nil =>
    refine ⟨e, ?_, h, rfl⟩
    unfold visible
    split_ifs
    · rfl
    · rfl
  | cons d ds ih =>
    obtain ⟨ids, rfl⟩ := htexts d List.mem_cons_self
    have hcons : tokenIds (.single requestId none ids :: ds) = ids :: tokenIds ds := rfl
    rw [hcons] at hplain ⊢
    obtain ⟨e₁, hread, hreads, hmap⟩ := readOutput_single template h none ids
    have hhead := hplain _ List.mem_cons_self
    obtain ⟨e₂, hget, hreads₂, hmap₂⟩ := ih hreads
      (fun d hd => htexts d (List.mem_cons_of_mem _ hd))
      (fun t ht => hplain t (List.mem_cons_of_mem _ ht))
    refine ⟨e₂, ?_, hreads₂, hmap₂.trans hmap⟩
    rw [getResponseFromStreamOutput, hread, Except.ok_bind]
    dsimp only
    rw [hget, Except.ok_bind, responseOf_unmarked hhead, Reading.read_mode hhead, ← List.map_append,
      ← visible_append]
    rfl

/-- The responses for texts replace the content one after the other. -/
theorem putResponses_said (uuid : ℕ → String) (drawn : ℕ) (texts before : List Text)
    (hresp : e.responseMap.lookup requestId = some (said (e.mode = .reasoning) before)) :
    ∃ responseMap, e.putResponses uuid drawn (texts.map (saying requestId)) =
        .ok ({ e with responseMap }, drawn) ∧
      responseMap.lookup requestId = some (said (e.mode = .reasoning) (before ++ texts)) := by
  induction texts generalizing e before with
  | nil => exact ⟨e.responseMap, rfl, by rw [hresp, List.append_nil]⟩
  | cons text texts ih =>
    have hnext : (e.responseMap.insert requestId
        (said (e.mode = .reasoning) (before ++ [text]))).lookup requestId =
          some (said (e.mode = .reasoning) (before ++ [text])) := AList.lookup_insert _
    obtain ⟨responseMap, hput, hlookup⟩ := ih (e := { e with responseMap := _ }) _ hnext
    rw [List.append_assoc] at hlookup
    refine ⟨responseMap, ?_, hlookup⟩
    rw [List.map_cons, putResponses]
    unfold saying
    dsimp only
    rw [hresp]
    dsimp only
    rw [putChoice_said, Except.ok_bind]
    exact hput

variable (template) in
/-- The callbacks with texts that are no markers. -/
theorem callBack_said (uuid : ℕ → String) (drawn : ℕ) {callbacks : List (List StreamOutput)}
    (htexts : ∀ d ∈ callbacks.flatten, d.IsText requestId) (h : e.Reads requestId v)
    (hplain : ∀ t ∈ lib.chunks v.streamer (tokenIds callbacks.flatten), ¬ template.IsMarker t)
    (before : List Text)
    (hresp : e.responseMap.lookup requestId = some (said (v.output.mode = .reasoning) before)) :
    ∃ e', e.callBack template uuid drawn callbacks = .ok (e', drawn) ∧
      e'.Reads requestId (v.readAll template (tokenIds callbacks.flatten)) ∧
      e'.responseMap.lookup requestId = some (said (v.output.mode = .reasoning) (before ++
        visible v.output.mode (lib.chunks v.streamer (tokenIds callbacks.flatten)))) := by
  induction callbacks generalizing e v before with
  | nil =>
    refine ⟨e, rfl, h, ?_⟩
    rw [hresp]
    unfold visible
    split_ifs
    · exact congrArg (fun ts => some (said _ ts)) (List.append_nil _).symm
    · exact congrArg (fun ts => some (said _ ts)) (List.append_nil _).symm
  | cons ds callbacks ih =>
    have hcons : tokenIds (ds :: callbacks).flatten = tokenIds ds ++ tokenIds callbacks.flatten := by
      unfold tokenIds
      rw [List.flatten_cons, List.flatMap_append]
    rw [hcons] at hplain ⊢
    rw [EngineLibrary.chunks_append] at hplain ⊢
    rw [List.flatten_cons] at htexts
    have hfirst : ∀ t ∈ lib.chunks v.streamer (tokenIds ds), ¬ template.IsMarker t :=
      fun t ht => hplain t (List.mem_append_left _ ht)
    obtain ⟨e₁, hget, hreads, hmap⟩ := getResponse_unmarked template h
      (fun d hd => htexts d (List.mem_append_left _ hd)) hfirst
    -- The callback reads the mode after all texts of the group, which is still the same.
    have hmode : e₁.mode = v.output.mode := by
      rw [congrArg OutputState.mode hreads.output]
      exact Reading.readAll_mode hfirst
    rw [← hmap, ← hmode] at hresp
    obtain ⟨responseMap, hput, hlookup⟩ := putResponses_said uuid drawn
      (visible v.output.mode (lib.chunks v.streamer (tokenIds ds))) before hresp
    rw [hmode, ← Reading.readAll_mode hfirst] at hlookup
    obtain ⟨e₂, hback, hreads₂, hlookup₂⟩ := ih
      (fun d hd => htexts d (List.mem_append_right _ hd)) (hreads.withResponses responseMap)
      (fun t ht => hplain t (List.mem_append_right _ (by rwa [Reading.readAll_streamer] at ht)))
      _ hlookup
    refine ⟨e₂, ?_, ?_, ?_⟩
    · rw [callBack, hget, Except.ok_bind]
      dsimp only
      rw [hput]
      exact hback
    · rw [Reading.readAll, List.foldl_append]
      exact hreads₂
    · rw [hlookup₂, Reading.readAll_mode hfirst, Reading.readAll_streamer, visible_append,
        List.append_assoc]

end MlcLlmEngine

/-! ## What a call delivers -/

namespace Infer

/-- The content of a packet. -/
def Sent.content : Sent → Text
  | .delta _ _ message _ => message.content.getD []
  | .error _ _ => []

/-- The contents of packets, one behind the other. -/
def sentText (sent : List Sent) : Text := sent.flatMap Sent.content

variable {requestId : String} {v : Reading lib} {c : InferCall lib}

/-- The content that a step sends is what is kept of its texts. -/
theorem sentText_packets (ignoreReasoningMessages : Bool) (sequence : ℕ) (mode : OutputMode)
    (texts : List Text) :
    sentText (packets ignoreReasoningMessages sequence
        (said (mode = .reasoning) (visible mode texts))) =
      Erasure.kept (marks (shown ignoreReasoningMessages mode) texts) := by
  unfold visible shown
  by_cases htool : mode = .toolCall
  · -- In an open tool call there are no messages.
    rw [if_pos htool, decide_eq_false (not_not_intro htool), Bool.false_and, kept_marks_false]
    rfl
  · rw [if_neg htool, decide_eq_true htool, Bool.true_and]
    cases hlast : (spoken texts).getLast? with
    | none =>
      have hkept : ∀ s, Erasure.kept (marks s texts) = [] := by
        intro s
        cases s with
        | false => exact kept_marks_false texts
        | true => rw [kept_marks_true, hlast, Option.getD_none]
      rw [hkept, said, hlast]
      rfl
    | some text =>
      -- The message has the last text alone, and only its flag can make the loop skip it.
      have hne : decide (text = []) = false := by
        have hmem := List.mem_of_getLast? hlast
        simpa using (List.mem_filter.mp hmem).2
      have hdismiss : dismissDelta ignoreReasoningMessages
          ⟨"assistant", some text, decide (mode = .reasoning), []⟩ =
            .ok (ignoreReasoningMessages && decide (mode = .reasoning)) := by
        unfold dismissDelta
        dsimp only
        rw [hne, Bool.false_and, Bool.or_false]
      rw [said, hlast]
      unfold packets
      dsimp only
      rw [hdismiss]
      cases ignoreReasoningMessages && decide (mode = .reasoning) with
      | true =>
        rw [Bool.not_true, kept_marks_false]
        rfl
      | false =>
        rw [Bool.not_false, kept_marks_true, hlast]
        exact List.append_nil text

variable (template) in
/-- A step sends what is kept of its texts. -/
theorem advance_kept (ignoreReasoningMessages : Bool) (h : Reads c requestId v) {s : EngineStep}
    (hs : s.IsText requestId)
    (hplain : ∀ t ∈ lib.chunks v.streamer (tokenIds s.callbacks.flatten), ¬ template.IsMarker t) :
    ∃ c', c.advance template ignoreReasoningMessages s = .ok c' ∧
      Reads c' requestId (v.readAll template (tokenIds s.callbacks.flatten)) ∧
      sentText c'.sent = sentText c.sent ++ Erasure.kept (marks
        (shown ignoreReasoningMessages v.output.mode)
        (lib.chunks v.streamer (tokenIds s.callbacks.flatten))) := by
  obtain ⟨e', hback, hreads, hresp⟩ := MlcLlmEngine.callBack_said template s.uuid 0 hs
    (h.engine.withResponses _) hplain [] (AList.lookup_insert _)
  rw [List.nil_append] at hresp
  generalize hresponse : said (v.output.mode = .reasoning) (visible v.output.mode
    (lib.chunks v.streamer (tokenIds s.callbacks.flatten))) = resp at hresp
  have hopen : resp.finishReason = none ∧ ∀ m, resp.message = some m → m.content ≠ none := by
    rw [← hresponse]
    unfold said
    split
    · exact ⟨rfl, by simp⟩
    · exact ⟨rfl, by simp⟩
  obtain ⟨c', hadvance, hsent, hrunning, hid, hreads'⟩ := advance_of_callBack template
    ignoreReasoningMessages h hback hreads hresp fun _ => hopen.2
  refine ⟨c', hadvance, ⟨?_, hid, hreads'⟩, ?_⟩
  · rw [hrunning, hopen.1]
    simp
  · rw [← sentText_packets ignoreReasoningMessages c.sequence, hresponse, hsent]
    exact List.flatMap_append

variable (template) in
/-- Steps send what is kept of their texts. -/
theorem serve_kept (ignoreReasoningMessages : Bool) (h : Reads c requestId v)
    {steps : List EngineStep} (hsteps : ∀ s ∈ steps, s.IsText requestId)
    (hplain : ∀ ts ∈ lib.stepChunks v.streamer steps, ∀ t ∈ ts, ¬ template.IsMarker t) :
    ∃ c', c.serve template ignoreReasoningMessages steps = .ok c' ∧
      Reads c' requestId
        (v.readAll template (tokenIds (steps.flatMap fun s => s.callbacks.flatten))) ∧
      (v.readAll template (tokenIds (steps.flatMap fun s => s.callbacks.flatten))).output.mode =
        v.output.mode ∧
      sentText c'.sent = sentText c.sent ++ Erasure.kept ((lib.stepChunks v.streamer steps).flatMap
        (marks (shown ignoreReasoningMessages v.output.mode))) := by
  induction steps generalizing c v with
  | nil => exact ⟨c, rfl, h, rfl, (List.append_nil _).symm⟩
  | cons s steps ih =>
    have hhead := hplain _ List.mem_cons_self
    obtain ⟨c₁, hadvance, h₁, hsent₁⟩ := advance_kept template ignoreReasoningMessages h
      (hsteps s List.mem_cons_self) hhead
    obtain ⟨c₂, hserve, h₂, hmode₂, hsent₂⟩ := ih h₁
      (fun s hs => hsteps s (List.mem_cons_of_mem _ hs))
      (fun ts hts => hplain ts (List.mem_cons_of_mem _ (by
        rwa [Reading.readAll_streamer] at hts)))
    rw [Reading.readAll_mode hhead, Reading.readAll_streamer] at hsent₂
    rw [Reading.readAll_mode hhead] at hmode₂
    refine ⟨c₂, ?_, ?_, ?_, ?_⟩
    · rw [InferCall.serve, hadvance]
      exact hserve
    · rw [List.flatMap_cons, Reading.readAll_append]
      exact h₂
    · rw [List.flatMap_cons, Reading.readAll_append]
      exact hmode₂
    · rw [hsent₂, hsent₁, List.append_assoc, ← Erasure.kept_append]
      rfl

end Infer

/-! ## A whole request -/

namespace Script

variable {requestId : String} (script : Script requestId) (lib : EngineLibrary)

/-- The texts of the steps before the final one. -/
def stepTexts : List (List Text) := lib.stepChunks lib.textStreamer script.steps

/-- The streamer of the request behind these steps. -/
def lastStreamer : lib.TextStreamer :=
  lib.putAll lib.textStreamer (tokenIds (script.steps.flatMap fun s => s.callbacks.flatten))

/-- The texts of the final step, the last of which is that of the final output. -/
def lastTexts : List Text :=
  let idss := tokenIds (script.callbacks.flatten ++ script.before)
  lib.chunks (script.lastStreamer lib) idss ++ [(Reading.chunk
    ⟨lib.putAll (script.lastStreamer lib) idss, ⟨.text, []⟩⟩ (some script.reason.name)
      script.ids).2]

/-- The texts of the request. -/
def chunks : List Text := (script.stepTexts lib).flatten ++ script.lastTexts lib

/-- The texts of the request with what becomes of them: those of the final step are lost, and so are
all others but the last one of a step. -/
def pieces (ignoreReasoningMessages : Bool) (mode : OutputMode) : List (Text × Bool) :=
  (script.stepTexts lib).flatMap (marks (shown ignoreReasoningMessages mode)) ++
    (script.lastTexts lib).map fun text => (text, false)

/-- What is lost of the text is at most two newlines, and nothing but newlines follows the first of
them. -/
def Spared (ignoreReasoningMessages : Bool) (mode : OutputMode) : Prop :=
  (Erasure.lost (script.pieces lib ignoreReasoningMessages mode)).length ≤ 2 ∧
    ∀ b ∈ Erasure.whole (Erasure.fromLost (script.pieces lib ignoreReasoningMessages mode)), b = 0x0A

end Script

/-- Texts are equal up to a newline at the end of one of them. -/
def EqUpToNewline (s t : Text) : Prop := s = t ∨ s = t ++ [0x0A] ∨ s ++ [0x0A] = t

/-- The contents of the deltas of a request are its text, up to a newline. -/
def Script.TextKept {requestId : String} (script : Script requestId) (template : ChatTemplateEngine)
    (ignoreReasoningMessages : Bool) (e : MlcLlmEngine lib) : Prop :=
  ∃ c, (InferCall.start e requestId none).serve template ignoreReasoningMessages
      (script.steps ++ [script.last]) = .ok c ∧
    EqUpToNewline (Infer.sentText c.sent) (script.chunks lib).flatten

/-- Behind a newline of its own, a text is equal to another up to a newline when it is the other one
but for at most two newlines. -/
theorem eqUpToNewline_iff {s t : Text} :
    EqUpToNewline (s ++ [0x0A]) t ↔ ∃ k ≤ 2, t = s ++ List.replicate k 0x0A := by
  constructor
  · rintro (rfl | h | rfl)
    · exact ⟨1, by decide, rfl⟩
    · exact ⟨0, by decide, by rw [List.append_cancel_right h]; exact (List.append_nil t).symm⟩
    · exact ⟨2, by decide, List.append_assoc ..⟩
  · rintro ⟨k, hk, rfl⟩
    match k, hk with
    | 0, _ => exact .inr (.inl (by simp))
    | 1, _ => exact .inl rfl
    | 2, _ => exact .inr (.inr (by simp))

namespace Script

variable {requestId : String} (script : Script requestId) (ignoreReasoningMessages : Bool)

theorem whole_pieces (mode : OutputMode) :
    Erasure.whole (script.pieces lib ignoreReasoningMessages mode) =
      (script.chunks lib).flatten := by
  have hsteps : ∀ tss : List (List Text), Erasure.whole (tss.flatMap
      (marks (shown ignoreReasoningMessages mode))) = tss.flatten.flatten := by
    intro tss
    induction tss with
    | nil => rfl
    | cons ts tss ih =>
      rw [List.flatMap_cons, Erasure.whole_append, whole_marks, ih, List.flatten_cons,
        List.flatten_append]
  unfold pieces chunks
  rw [Erasure.whole_append, hsteps, Erasure.whole_map_false, List.flatten_append]

/-- Nothing of the final step is kept. -/
theorem kept_pieces (mode : OutputMode) :
    Erasure.kept (script.pieces lib ignoreReasoningMessages mode) =
      Erasure.kept ((script.stepTexts lib).flatMap
        (marks (shown ignoreReasoningMessages mode))) := by
  unfold pieces
  rw [Erasure.kept_append, Erasure.kept_map_false, List.append_nil]

variable (template) in
/-- A request delivers what is kept of its texts, and a newline. -/
theorem serve_pieces {e : MlcLlmEngine lib} (herror : e.lastError = none)
    (hplain : ∀ t ∈ script.chunks lib, ¬ template.IsMarker t) :
    ∃ c, (InferCall.start e requestId none).serve template ignoreReasoningMessages
        (script.steps ++ [script.last]) = .ok c ∧
      Infer.sentText c.sent =
        Erasure.kept (script.pieces lib ignoreReasoningMessages e.mode) ++ [0x0A] := by
  have hreads : Infer.Reads (InferCall.start e requestId none) requestId
      ⟨lib.textStreamer, e.toOutputState⟩ := ⟨rfl, rfl, AList.lookup_insert _, rfl, herror⟩
  obtain ⟨c, hserve, hc, -, hsent⟩ := Infer.serve_kept template ignoreReasoningMessages hreads
    script.steps_text fun ts hts t ht =>
      hplain t (List.mem_append_left _ (List.mem_flatten.mpr ⟨ts, hts, ht⟩))
  have hlast : script.last.callbacks = script.callbacks ++
      [script.before ++ [.single requestId (some script.reason.name) script.ids]] := rfl
  obtain ⟨c', message, v', hadvance, hsent', -, -, -, hcontent⟩ := Infer.advance_final template
    ignoreReasoningMessages hc hlast script.last_text script.reason_ne
  -- The text of the final output is no marker, so the engine does not replace the reason.
  have hmessage : message.content = some [0x0A] := by
    refine hcontent fun hover => ?_
    have hfinal : ((Reading.readAll template (Reading.readAll template
        ⟨lib.textStreamer, e.toOutputState⟩ (tokenIds (script.steps.flatMap fun s =>
          s.callbacks.flatten))) (tokenIds (script.callbacks.flatten ++ script.before))).chunk
            (some script.reason.name) script.ids).2 ∈ script.lastTexts lib := by
      refine List.mem_append_right _ (List.mem_singleton.mpr ?_)
      unfold Reading.chunk lastStreamer
      rw [Reading.readAll_streamer, Reading.readAll_streamer]
    have heotc := hover.2.1
    simp only [ChatTemplateEngine.isEotcToken, decide_eq_true_eq] at heotc
    exact hplain _ (List.mem_append_right _ hfinal) (.inr (.inl heotc))
  refine ⟨c', ?_, ?_⟩
  · rw [Infer.serve_append _ hserve, InferCall.serve, hadvance]
    rfl
  · rw [hsent', Infer.sentText, List.flatMap_append, kept_pieces]
    refine congrArg₂ _ hsent ?_
    simp [Infer.Sent.content, hmessage]

end Script

/-- When the texts of a request are no markers, the contents that it delivers are its text up to a
newline if and only if what is lost of it is at most two newlines, with nothing but newlines behind
the first of them. -/
theorem text_kept_iff (lib : EngineLibrary) (template : ChatTemplateEngine)
    (ignoreReasoningMessages : Bool) (e : MlcLlmEngine lib) (herror : e.lastError = none)
    (requestId : String) (script : Script requestId)
    (hplain : ∀ t ∈ script.chunks lib, ¬ template.IsMarker t) :
    script.TextKept template ignoreReasoningMessages e ↔
      script.Spared lib ignoreReasoningMessages e.mode := by
  obtain ⟨c, hserve, hsent⟩ :=
    script.serve_pieces template ignoreReasoningMessages herror hplain
  have hkept : script.TextKept template ignoreReasoningMessages e ↔ ∃ k ≤ 2,
      (script.chunks lib).flatten = Erasure.kept (script.pieces lib ignoreReasoningMessages e.mode) ++
        List.replicate k 0x0A := by
    rw [← eqUpToNewline_iff, ← hsent]
    constructor
    · rintro ⟨c', hserve', hequal⟩
      obtain rfl : c = c' := Except.ok.inj (hserve.symm.trans hserve')
      exact hequal
    · exact fun hequal => ⟨c, hserve, hequal⟩
  rw [hkept, ← script.whole_pieces ignoreReasoningMessages e.mode]
  unfold Script.Spared
  simp only [Erasure.whole_eq_kept_append_iff]
  constructor
  · rintro ⟨k, hk, rfl, hall⟩
    exact ⟨hk, hall⟩
  · exact fun h => ⟨_, h.1, rfl, h.2⟩

/-- The text `a`, and then nothing but the end. -/
def quietEnd : Script "r" where
  steps := [textStep "r" [0x61]]
  callbacks := []
  before := []
  reason := .stop
  ids := []
  uuid := fun _ => ""
  steps_text := by
    intro s hs d hd
    rw [List.mem_singleton.mp hs] at hd
    exact ⟨_, List.mem_singleton.mp hd⟩
  last_text := StreamOutput.isText_of_none "r"
  reason_ne := fun h => by cases h

theorem text_kept_iff_quietEnd :
    quietEnd.TextKept angleTemplate false (@MlcLlmEngine.created byteLibrary) ↔
      quietEnd.Spared byteLibrary false .text :=
  text_kept_iff byteLibrary angleTemplate false MlcLlmEngine.created rfl "r" quietEnd (by decide)

/-- Of the text `ab`, the second part of which comes with the finish reason, the client receives
`a`. -/
theorem twoSteps_not_kept :
    ¬ (twoSteps .stop (by decide)).TextKept angleTemplate false
      (@MlcLlmEngine.created byteLibrary) := by
  rintro ⟨c, hserve, hequal⟩
  obtain ⟨c', hserve', hsent⟩ := (twoSteps .stop (by decide)).serve_pieces angleTemplate false
    (e := @MlcLlmEngine.created byteLibrary) rfl (by decide)
  obtain rfl : c = c' := Except.ok.inj (hserve.symm.trans hserve')
  rw [hsent] at hequal
  revert hequal
  unfold EqUpToNewline
  decide

end Ailoy
