import Ailoy.Vm.EngineHistory

/-!
# A model without tool call markers

The markers of a tool call segment are empty when the configuration has none, and the engine compares
them with whole texts. Here an engine reads any outputs of any requests, and `Heard` keeps the texts
that it has read and the contents that it has made of them. Without an empty text the output mode
follows the think markers and every other text becomes a content; an empty text opens a tool call
segment that no text closes. So the engine does what is expected of it exactly as long as it has read
no empty text (`no_markers_iff`).
-/

namespace Ailoy

variable {lib : EngineLibrary}

/-- The template of a configuration that gives no markers. -/
def noMarkers : ChatTemplateEngine := .fromConfig none none

/-! ## What an engine reads -/

/-- What happens to an engine: a request is started, or an output is read. -/
inductive EngineInput
  | start (requestId : String) (configError : Option String)
  | output (d : StreamOutput)

namespace MlcLlmEngine

/-- The texts of the group of an output. -/
def groupTexts : List (Option String) → List (List ℤ) → List lib.TextStreamer → List Text
  | reason :: reasons, ids :: idss, streamer :: streamers =>
    (Reading.chunk ⟨streamer, ⟨.text, []⟩⟩ reason ids).2 :: groupTexts reasons idss streamers
  | _, _, _ => []

/-- The texts of an output. An output of an unknown request has none, and neither has one with the
usage of a request. -/
def outputTexts (e : MlcLlmEngine lib) (d : StreamOutput) : List Text :=
  match e.requestMap.lookup d.requestId, d.requestFinalUsageJsonStr with
  | some streamers, none => groupTexts d.groupFinishReason d.groupDeltaTokenIds streamers
  | _, _ => []

end MlcLlmEngine

/-- The texts among the deltas of responses. -/
def contents (responses : List StreamResponse) : List Text :=
  responses.flatMap fun r => r.choices.filterMap (·.content)

/-- An engine with the texts that it has read, and the contents that it has made of them. -/
structure Heard (lib : EngineLibrary) where
  engine : MlcLlmEngine lib
  texts : List Text
  contents : List Text

namespace Heard

/-- The engine after an input that did not throw. -/
def next (template : ChatTemplateEngine) (h : Heard lib) : EngineInput → Option (Heard lib)
  | .start requestId configError =>
    some { h with engine := h.engine.initializeChatCompletion requestId configError }
  | .output d =>
    match h.engine.readOutput template d with
    | .ok (e, responses) =>
      some ⟨e, h.texts ++ h.engine.outputTexts d, h.contents ++ Ailoy.contents responses⟩
    | .error _ => none

end Heard

/-- The output mode behind a text, which only a think marker changes. -/
def thinkStep (mode : OutputMode) (text : Text) : OutputMode :=
  if text = thinkToken then .reasoning else if text = endThinkToken then .text else mode

/-- The output mode that the think markers of texts lead to. -/
def thinkMode (mode : OutputMode) (texts : List Text) : OutputMode := texts.foldl thinkStep mode

/-- A text that is to be delivered. -/
def IsContent (text : Text) : Prop := text ≠ [] ∧ text ≠ thinkToken ∧ text ≠ endThinkToken

instance (text : Text) : Decidable (IsContent text) := inferInstanceAs (Decidable (_ ∧ _))

/-- The last think marker determines the output mode, nothing is collected, and every text that is
no think marker and not empty has been delivered, in order. -/
structure Heard.Expected (h : Heard lib) : Prop where
  output : h.engine.toOutputState = ⟨thinkMode .text h.texts, []⟩
  contents : h.contents = h.texts.filter IsContent

theorem thinkMode_ne_toolCall {mode : OutputMode} (h : mode ≠ .toolCall) (texts : List Text) :
    thinkMode mode texts ≠ .toolCall := by
  induction texts generalizing mode with
  | nil => exact h
  | cons text texts ih =>
    refine ih ?_
    unfold thinkStep
    split_ifs
    · decide
    · decide
    · exact h

/-! ## The reading without markers -/

/-- A text that is not empty is no marker of a tool call segment. -/
theorem ne_markers {text : Text} (h : text ≠ []) :
    text ≠ noMarkers.botcToken ∧ text ≠ noMarkers.eotcToken := ⟨h, h⟩

/-- A text that is not empty, outside of a tool call segment. -/
theorem readChoice_nonempty {mode : OutputMode} (hmode : mode ≠ .toolCall)
    (reason : Option FinishReason) {text : Text} (h : text ≠ []) :
    (⟨mode, []⟩ : OutputState).readChoice lib noMarkers reason text =
      (⟨thinkStep mode text, []⟩, ⟨reason, if IsContent text then some text else none⟩) := by
  obtain ⟨hbotc, heotc⟩ := ne_markers h
  rw [OutputState.readChoice_outside _ reason hbotc heotc hmode, if_neg h]
  unfold IsContent thinkStep
  by_cases hthink : text = thinkToken
  · simp [hthink]
  · by_cases hend : text = endThinkToken
    · simp [hend, show endThinkToken ≠ thinkToken by decide]
    · simp [h, hthink, hend]

/-- An empty text opens a tool call segment. -/
theorem readChoice_empty (o : OutputState) (reason : Option FinishReason) :
    (o.readChoice lib noMarkers reason []).1.mode = .toolCall := rfl

/-- No text closes a tool call segment. -/
theorem readChoice_stuck {o : OutputState} (hmode : o.mode = .toolCall)
    (reason : Option FinishReason) (text : Text) :
    (o.readChoice lib noMarkers reason text).1.mode = .toolCall := by
  by_cases h : text = []
  · rw [h]
    exact readChoice_empty o reason
  · obtain ⟨hbotc, heotc⟩ := ne_markers h
    rw [o.readChoice_inside reason hbotc heotc hmode]
    exact hmode

namespace MlcLlmEngine

/-- The reading of the first text of a group, and then of the others. -/
theorem readGroup_cons (o : OutputState) (reason : Option String) (reasons : List (Option String))
    (ids : List ℤ) (idss : List (List ℤ)) (streamer : lib.TextStreamer)
    (streamers : List lib.TextStreamer) :
    ∃ text, groupTexts (reason :: reasons) (ids :: idss) (streamer :: streamers) =
        text :: groupTexts reasons idss streamers ∧
      (readGroup noMarkers o (reason :: reasons) (ids :: idss) (streamer :: streamers)).1 =
        (readGroup noMarkers (o.readChoice lib noMarkers (reason.bind FinishReason.ofName) text).1
          reasons idss streamers).1 ∧
      (readGroup noMarkers o (reason :: reasons) (ids :: idss)
          (streamer :: streamers)).2.2.filterMap (·.content) =
        (o.readChoice lib noMarkers (reason.bind FinishReason.ofName) text).2.content.toList ++
          (readGroup noMarkers (o.readChoice lib noMarkers (reason.bind FinishReason.ofName) text).1
            reasons idss streamers).2.2.filterMap (·.content) := by
  refine ⟨(Reading.chunk ⟨streamer, ⟨.text, []⟩⟩ reason ids).2, rfl, rfl, ?_⟩
  have hfilter : ∀ (choice : Choice) (choices : List Choice),
      (if choice.content.isSome || choice.finishReason.isSome then choice :: choices
        else choices).filterMap (·.content) =
      choice.content.toList ++ choices.filterMap (·.content) := by
    intro choice choices
    cases hcontent : choice.content with
    | none => split_ifs <;> simp [hcontent]
    | some text => simp [hcontent]
  exact hfilter _ _

/-- A group without an empty text follows its think markers, and delivers the other texts. -/
theorem readGroup_nonempty {mode : OutputMode} (hmode : mode ≠ .toolCall)
    (reasons : List (Option String)) (idss : List (List ℤ)) (streamers : List lib.TextStreamer)
    (h : ∀ text ∈ groupTexts reasons idss streamers, text ≠ []) :
    (readGroup noMarkers ⟨mode, []⟩ reasons idss streamers).1 =
        ⟨thinkMode mode (groupTexts reasons idss streamers), []⟩ ∧
      (readGroup noMarkers ⟨mode, []⟩ reasons idss streamers).2.2.filterMap (·.content) =
        (groupTexts reasons idss streamers).filter IsContent := by
  induction reasons generalizing mode idss streamers with
  | nil => exact ⟨rfl, rfl⟩
  | cons reason reasons ih =>
    cases idss with
    | nil => exact ⟨rfl, rfl⟩
    | cons ids idss =>
      cases streamers with
      | nil => exact ⟨rfl, rfl⟩
      | cons streamer streamers =>
        obtain ⟨text, htexts, houtput, hcontents⟩ :=
          readGroup_cons (⟨mode, []⟩ : OutputState) reason reasons ids idss streamer streamers
        rw [htexts] at h ⊢
        rw [readChoice_nonempty hmode _ (h text List.mem_cons_self)] at houtput hcontents
        have hstep : thinkStep mode text ≠ .toolCall := thinkMode_ne_toolCall hmode [text]
        obtain ⟨houtput', hcontents'⟩ :=
          ih hstep idss streamers fun t ht => h t (List.mem_cons_of_mem _ ht)
        refine ⟨houtput.trans houtput', ?_⟩
        rw [hcontents, hcontents']
        by_cases hcontent : IsContent text
        · simp [hcontent]
        · simp [hcontent]

/-- After an empty text a tool call segment is open, and so it is when one was open before. -/
theorem readGroup_stuck {o : OutputState} {reasons : List (Option String)} {idss : List (List ℤ)}
    {streamers : List lib.TextStreamer}
    (h : o.mode = .toolCall ∨ [] ∈ groupTexts reasons idss streamers) :
    (readGroup noMarkers o reasons idss streamers).1.mode = .toolCall := by
  have hnil : o.mode = .toolCall ∨ [] ∈ ([] : List Text) → o.mode = .toolCall :=
    fun h => h.resolve_right (by simp)
  induction reasons generalizing o idss streamers with
  | nil => exact hnil h
  | cons reason reasons ih =>
    cases idss with
    | nil => exact hnil h
    | cons ids idss =>
      cases streamers with
      | nil => exact hnil h
      | cons streamer streamers =>
        obtain ⟨text, htexts, houtput, -⟩ :=
          readGroup_cons o reason reasons ids idss streamer streamers
        rw [houtput]
        rw [htexts, List.mem_cons] at h
        refine ih ?_ fun h => h.resolve_right (by simp)
        rcases h with hopen | hempty | hrest
        · exact .inl (readChoice_stuck hopen _ text)
        · rw [← hempty]
          exact .inl (readChoice_empty o _)
        · exact .inr hrest

/-- An output is read as a group. One that is not read is an empty group. -/
theorem readOutput_group {e e' : MlcLlmEngine lib} {d : StreamOutput}
    {responses : List StreamResponse} (h : e.readOutput noMarkers d = .ok (e', responses)) :
    ∃ (reasons : List (Option String)) (idss : List (List ℤ)) (streamers : List lib.TextStreamer),
      e.outputTexts d = groupTexts reasons idss streamers ∧
      e'.toOutputState = (readGroup noMarkers e.toOutputState reasons idss streamers).1 ∧
      contents responses =
        (readGroup noMarkers e.toOutputState reasons idss streamers).2.2.filterMap (·.content) := by
  unfold readOutput at h
  unfold outputTexts
  cases hlookup : e.requestMap.lookup d.requestId with
  | none =>
    rw [hlookup] at h
    obtain ⟨rfl, rfl⟩ := Prod.mk.inj (Except.ok.inj h)
    exact ⟨[], [], [], rfl, rfl, rfl⟩
  | some streamers =>
    rw [hlookup] at h
    cases husage : d.requestFinalUsageJsonStr with
    | some usage =>
      rw [husage] at h
      obtain ⟨rfl, rfl⟩ := Prod.mk.inj (Except.ok.inj h)
      exact ⟨[], [], [], rfl, rfl, rfl⟩
    | none =>
      rw [husage] at h
      dsimp only at h
      refine ⟨d.groupFinishReason, d.groupDeltaTokenIds, streamers, rfl, ?_⟩
      split_ifs at h with hsizes hchoices
      · obtain ⟨rfl, rfl⟩ := Prod.mk.inj (Except.ok.inj h)
        exact ⟨rfl, List.append_nil _⟩
      · obtain ⟨rfl, rfl⟩ := Prod.mk.inj (Except.ok.inj h)
        rw [not_not] at hchoices
        exact ⟨rfl, by rw [hchoices]; rfl⟩

end MlcLlmEngine

/-! ## Every run -/

namespace Heard

/-- What holds of an engine whatever it reads: all is as expected before an empty text, and a tool
call segment is open after it. -/
structure Kept (h : Heard lib) : Prop where
  expected : [] ∉ h.texts → h.Expected
  stuck : [] ∈ h.texts → h.engine.mode = .toolCall

theorem kept_next {h h' : Heard lib} (hkept : h.Kept) {input : EngineInput}
    (hnext : h.next noMarkers input = some h') : h'.Kept := by
  cases input with
  | start requestId configError =>
    obtain rfl := Option.some.inj hnext
    -- The start of a request leaves the mode and the tokens of the request before.
    have hsame : (h.engine.initializeChatCompletion requestId configError).toOutputState =
        h.engine.toOutputState := by
      unfold MlcLlmEngine.initializeChatCompletion
      cases configError with
      | none => rfl
      | some err => rfl
    refine ⟨fun hnone => ⟨?_, (hkept.expected hnone).contents⟩, fun hsome => ?_⟩
    · exact hsame.trans (hkept.expected hnone).output
    · exact (congrArg OutputState.mode hsame).trans (hkept.stuck hsome)
  | output d =>
    unfold next at hnext
    dsimp only at hnext
    cases hread : h.engine.readOutput noMarkers d with
    | error f =>
      rw [hread] at hnext
      cases hnext
    | ok p =>
      obtain ⟨e, responses⟩ := p
      rw [hread] at hnext
      obtain rfl := Option.some.inj hnext
      obtain ⟨reasons, idss, streamers, htexts, houtput, hcontents⟩ :=
        MlcLlmEngine.readOutput_group hread
      refine ⟨fun hnone => ?_, fun hsome => ?_⟩
      · rw [List.mem_append, not_or, htexts] at hnone
        obtain ⟨hout, hcont⟩ := hkept.expected hnone.1
        -- No text was empty before, so the mode is that of the think markers.
        have hmode : thinkMode .text h.texts ≠ .toolCall := thinkMode_ne_toolCall (by decide) _
        obtain ⟨hgroup, hfilter⟩ := MlcLlmEngine.readGroup_nonempty hmode reasons idss streamers
          fun text ht hempty => hnone.2 (hempty ▸ ht)
        rw [hout] at houtput hcontents
        refine ⟨?_, ?_⟩
        · rw [houtput, hgroup, htexts]
          exact congrArg (fun mode => (⟨mode, []⟩ : OutputState)) List.foldl_append.symm
        · rw [hcontents, hfilter, hcont, htexts, List.filter_append]
      · rw [List.mem_append, htexts] at hsome
        show e.toOutputState.mode = .toolCall
        rw [houtput]
        refine MlcLlmEngine.readGroup_stuck ?_
        rcases hsome with hbefore | hnow
        · exact .inl (hkept.stuck hbefore)
        · exact .inr hnow

/-- An engine that has read nothing. -/
def created : Heard lib := ⟨.created, [], []⟩

theorem kept_of_run {history : List EngineInput} {h : Heard lib}
    (hrun : Transition.run (next noMarkers) created history = some h) : h.Kept :=
  Transition.ReachVia.invariant (P := fun h : Heard lib => h.Kept)
    ⟨fun _ => ⟨rfl, rfl⟩, fun hmem => absurd hmem (by simp [created])⟩
    (fun _ _ _ _ hkept _ hnext => kept_next hkept hnext) (Transition.reach_of_run hrun)

end Heard

/-- Without tool call markers, and whatever outputs of whatever requests an engine has read, it is as
expected if and only if none of the texts was empty. -/
theorem no_markers_iff (lib : EngineLibrary) (history : List EngineInput) (h : Heard lib)
    (hrun : Transition.run (Heard.next noMarkers) Heard.created history = some h) :
    h.Expected ↔ [] ∉ h.texts := by
  have hkept := Heard.kept_of_run hrun
  constructor
  · intro hexpected hmem
    have hmode := hkept.stuck hmem
    rw [congrArg OutputState.mode hexpected.output] at hmode
    exact thinkMode_ne_toolCall (by decide) h.texts hmode
  · exact hkept.expected

/-- One text that is not empty. -/
theorem no_markers_iff_text :
    (⟨⟨⟨.text, []⟩, AList.singleton "r" [()], ∅, none⟩, [[0x61]], [[0x61]]⟩ :
        Heard byteLibrary).Expected ↔ [] ∉ [([0x61] : Text)] :=
  no_markers_iff byteLibrary [.start "r" none, .output (.single "r" none [0x61])] _ rfl

/-- An empty text, as of a token that is the first byte of a character, and then the text `a`. -/
def emptyFirst : List EngineInput :=
  [.start "r" none, .output (.single "r" none []), .output (.single "r" none [0x61])]

/-- Behind the empty text the engine collects what it reads for a tool call. -/
theorem emptyFirst_not_expected :
    ∃ h : Heard byteLibrary,
      Transition.run (Heard.next noMarkers) Heard.created emptyFirst = some h ∧
      h.engine.toOutputState = ⟨.toolCall, [[0x61]]⟩ ∧ h.contents = [] ∧ ¬ h.Expected := by
  refine ⟨_, rfl, rfl, rfl, fun hexpected => ?_⟩
  have hmode := congrArg OutputState.mode hexpected.output
  revert hmode
  decide

end Ailoy
