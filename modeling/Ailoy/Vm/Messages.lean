import Ailoy.Lib.StopsAt
import Ailoy.Vm.StoreRetrieve

/-!
# The check of the messages

`_validate_language_model_messages` of `vm/src/mlc_llm/language_model.cpp`, on which `infer` and
`apply_chat_template` rely. `Value.IsMessage` is what a message has to be. The loop returns an error
at the first value that is no message, except in one case: in the error for `tool_calls` of another
type the code names the type of `content`, and when there is none, it throws (`validateMessage_cases`).
So the check is exact unless the loop stops at such a message (`validate_exact_iff`).
-/

namespace Ailoy

/-- `value_error` with a context, as the reason of an error output. -/
def ErrorOutput.valueError (context name expected actual : String) : ErrorOutput :=
  ⟨"[" ++ context ++ "] Value error:\n - name: " ++ name ++ "\n - expected: " ++ expected ++
    "\n - actual: " ++ actual⟩

/-! ## The check -/

section Check

variable (getType : Value → String) (context : String)

/-- The check of a message behind its role. -/
def validateContent (msg : List (String × Value)) : Except Fault (Option ErrorOutput) :=
  if (msg.lookup "content").isNone && (msg.lookup "tool_calls").isNone then
    .ok (some ⟨"Invalid msg schema"⟩)
  else
    match msg.lookup "content" with
    | none | some (.string _) | some .null =>
      match msg.lookup "tool_calls" with
      | none | some (.array _) => .ok none
      | some _ => do
        let v ← Value.mapAt msg "content"
        return some (.typeError context "tool_calls" "string_t" (getType v))
    | some _ => .ok (some ⟨"Invalid msg schema"⟩)

/-- The check of a message. -/
def validateMessage : Value → Except Fault (Option ErrorOutput)
  | .map msg =>
    match msg.lookup "role" with
    | none => .ok (some (.rangeError context "role"))
    | some (.string role) =>
      if role ≠ "system" && role ≠ "user" && role ≠ "assistant" && role ≠ "tool" then
        .ok (some (.valueError context "role" "system | user | assistant | tool" role))
      else validateContent getType context msg
    | some v => .ok (some (.typeError context "role" "string_t" (getType v)))
  | v => .ok (some (.typeError context "messages.*" "map_t" (getType v)))

/-- The loop over the messages. -/
def validateMessages : List Value → Except Fault (Option ErrorOutput)
  | [] => .ok none
  | msg :: messages => do
    match ← validateMessage getType context msg with
    | some e => return some e
    | none => validateMessages messages

/-- `_validate_language_model_messages`. -/
def validateLanguageModelMessages (inputMap : List (String × Value)) :
    Except Fault (Option ErrorOutput) :=
  match inputMap.lookup "messages" with
  | none => .ok (some (.rangeError context "messages"))
  | some (.array messages) => validateMessages getType context messages
  | some v => .ok (some (.typeError context "messages" "array_t" (getType v)))

end Check

/-! ## Messages -/

/-- The roles that a message may have. -/
def roles : List String := ["system", "user", "assistant", "tool"]

/-- A message has one of the roles. -/
def HasRole (msg : List (String × Value)) : Prop :=
  ∃ role ∈ roles, msg.lookup "role" = some (.string role)

/-- A message has a content or tool calls: the content is a string or null, the calls are an
array. -/
structure HasContent (msg : List (String × Value)) : Prop where
  present : msg.lookup "content" ≠ none ∨ msg.lookup "tool_calls" ≠ none
  content : ∀ v, msg.lookup "content" = some v → v = .null ∨ ∃ s, v = .string s
  toolCalls : ∀ v, msg.lookup "tool_calls" = some v → ∃ vs, v = .array vs

/-- There is no content, and the tool calls are no array. -/
def CallsAstray (msg : List (String × Value)) : Prop :=
  msg.lookup "content" = none ∧ ∃ v, msg.lookup "tool_calls" = some v ∧ ∀ vs, v ≠ .array vs

/-- A value that is a message. -/
def Value.IsMessage (v : Value) : Prop := ∃ msg, v = .map msg ∧ HasRole msg ∧ HasContent msg

/-- A value that would be a message if its tool calls were an array, and has no content. -/
def Value.CallsAstray (v : Value) : Prop :=
  ∃ msg, v = .map msg ∧ HasRole msg ∧ Ailoy.CallsAstray msg

/-- The messages of an input are an array of messages. -/
def HasMessages (inputMap : List (String × Value)) : Prop :=
  ∃ messages, inputMap.lookup "messages" = some (.array messages) ∧ ∀ v ∈ messages, v.IsMessage

/-- The check returns nothing for an input with messages, and an error for any other. -/
def ChecksExactly (inputMap : List (String × Value)) (reply : Except Fault (Option ErrorOutput)) :
    Prop :=
  (HasMessages inputMap ∧ reply = .ok none) ∨ (¬ HasMessages inputMap ∧ ∃ e, reply = .ok (some e))

theorem HasContent.not_callsAstray {msg : List (String × Value)} (h : HasContent msg) :
    ¬ CallsAstray msg := by
  rintro ⟨-, v, hv, hnot⟩
  obtain ⟨vs, rfl⟩ := h.toolCalls v hv
  exact hnot vs rfl

variable (getType : Value → String) (context : String)

/-- What is checked behind the role. -/
theorem validateContent_cases (msg : List (String × Value)) :
    (HasContent msg ∧ validateContent getType context msg = .ok none) ∨
    (¬ HasContent msg ∧ ¬ CallsAstray msg ∧
      ∃ e, validateContent getType context msg = .ok (some e)) ∨
    (CallsAstray msg ∧ ∃ f, validateContent getType context msg = .error f) := by
  unfold validateContent Value.mapAt
  cases hcontent : msg.lookup "content" with
  | none =>
    cases hcalls : msg.lookup "tool_calls" with
    | none =>
      refine .inr (.inl ⟨fun h => ?_, fun h => ?_, _, rfl⟩)
      · rcases h.present with hne | hne
        · exact hne hcontent
        · exact hne hcalls
      · obtain ⟨-, v, hv, -⟩ := h
        rw [hcalls] at hv
        cases hv
    | some calls =>
      by_cases harray : ∃ vs, calls = .array vs
      · obtain ⟨vs, rfl⟩ := harray
        refine .inl ⟨⟨.inr (by simp [hcalls]), by simp [hcontent], fun v hv => ?_⟩, rfl⟩
        rw [hcalls] at hv
        exact ⟨vs, (Option.some.inj hv).symm⟩
      · -- The error names the type of a content that is not there.
        have hnot : ∀ vs, calls ≠ .array vs := fun vs h => harray ⟨vs, h⟩
        refine .inr (.inr ⟨⟨hcontent, calls, hcalls, hnot⟩, ?_⟩)
        cases calls with
        | array vs => exact absurd rfl (hnot vs)
        | _ => exact ⟨_, rfl⟩
  | some content =>
    have hsome : ¬ CallsAstray msg := by
      rintro ⟨hnone, -⟩
      rw [hcontent] at hnone
      cases hnone
    by_cases hright : content = .null ∨ ∃ s, content = .string s
    · have hcontent' : ∀ v, msg.lookup "content" = some v → v = .null ∨ ∃ s, v = .string s := by
        intro v hv
        rw [hcontent] at hv
        exact Option.some.inj hv ▸ hright
      have hpresent : msg.lookup "content" ≠ none := by simp [hcontent]
      cases hcalls : msg.lookup "tool_calls" with
      | none =>
        refine .inl ⟨⟨.inl hpresent, hcontent', by simp [hcalls]⟩, ?_⟩
        rcases hright with rfl | ⟨s, rfl⟩ <;> rfl
      | some calls =>
        by_cases harray : ∃ vs, calls = .array vs
        · obtain ⟨vs, rfl⟩ := harray
          refine .inl ⟨⟨.inl hpresent, hcontent', fun v hv => ?_⟩, ?_⟩
          · rw [hcalls] at hv
            exact ⟨vs, (Option.some.inj hv).symm⟩
          · rcases hright with rfl | ⟨s, rfl⟩ <;> rfl
        · refine .inr (.inl ⟨fun h => harray (h.toolCalls calls hcalls), hsome, ?_⟩)
          cases calls with
          | array vs => exact absurd ⟨vs, rfl⟩ harray
          | _ => rcases hright with rfl | ⟨s, rfl⟩ <;> exact ⟨_, rfl⟩
    · refine .inr (.inl ⟨fun h => hright (h.content content hcontent), hsome, ?_⟩)
      cases content with
      | null => exact absurd (.inl rfl) hright
      | string s => exact absurd (.inr ⟨s, rfl⟩) hright
      | _ => exact ⟨_, rfl⟩

/-- The check of a message returns nothing for a message, an error for most other values, and throws
for tool calls of another type without a content. -/
theorem validateMessage_cases (v : Value) :
    (v.IsMessage ∧ ¬ v.CallsAstray ∧ validateMessage getType context v = .ok none) ∨
    (¬ v.IsMessage ∧ ¬ v.CallsAstray ∧ ∃ e, validateMessage getType context v = .ok (some e)) ∨
    (v.CallsAstray ∧ ∃ f, validateMessage getType context v = .error f) := by
  cases v with
  | map msg =>
    have hmessage : (Value.map msg).IsMessage ↔ HasRole msg ∧ HasContent msg :=
      ⟨fun ⟨m, hm, h⟩ => Value.map.inj hm ▸ h, fun h => ⟨msg, rfl, h⟩⟩
    have hastray : (Value.map msg).CallsAstray ↔ HasRole msg ∧ CallsAstray msg :=
      ⟨fun ⟨m, hm, h⟩ => Value.map.inj hm ▸ h, fun h => ⟨msg, rfl, h⟩⟩
    rw [hmessage, hastray]
    unfold validateMessage
    dsimp only
    by_cases hrole : HasRole msg
    · obtain ⟨role, hmem, hlookup⟩ := hrole
      have hknown : (role ≠ "system" && role ≠ "user" && role ≠ "assistant" && role ≠ "tool") =
          false := by
        simp only [roles, List.mem_cons, List.not_mem_nil, or_false] at hmem
        rcases hmem with rfl | rfl | rfl | rfl <;> rfl
      rw [hlookup]
      dsimp only
      rw [if_neg (by rw [hknown]; exact Bool.false_ne_true)]
      have hhas : HasRole msg := ⟨role, hmem, hlookup⟩
      rcases validateContent_cases getType context msg with
        ⟨hcontent, hreply⟩ | ⟨hcontent, hnot, hreply⟩ | ⟨hcalls, hreply⟩
      · exact .inl ⟨⟨hhas, hcontent⟩, fun h => hcontent.not_callsAstray h.2, hreply⟩
      · exact .inr (.inl ⟨fun h => hcontent h.2, fun h => hnot h.2, hreply⟩)
      · exact .inr (.inr ⟨⟨hhas, hcalls⟩, hreply⟩)
    · -- Without one of the roles the check ends before the content.
      refine .inr (.inl ⟨fun h => hrole h.1, fun h => hrole h.1, ?_⟩)
      cases hlookup : msg.lookup "role" with
      | none => exact ⟨_, rfl⟩
      | some v =>
        cases v with
        | string role =>
          have hunknown : (role ≠ "system" && role ≠ "user" && role ≠ "assistant" &&
              role ≠ "tool") = true := by
            have hnot : role ∉ roles := fun hmem => hrole ⟨role, hmem, hlookup⟩
            simpa [roles, and_assoc] using hnot
          dsimp only
          rw [if_pos hunknown]
          exact ⟨_, rfl⟩
        | _ => exact ⟨_, rfl⟩
  | _ =>
    refine .inr (.inl ⟨?_, ?_, _, rfl⟩)
    · rintro ⟨m, hm, -⟩
      cases hm
    · rintro ⟨m, hm, -⟩
      cases hm

/-- The loop throws when it stops at tool calls of another type without a content. -/
theorem validateMessages_cases (messages : List Value) :
    ((∀ v ∈ messages, v.IsMessage) ∧
      ¬ messages.StopsAt Value.IsMessage Value.CallsAstray ∧
      validateMessages getType context messages = .ok none) ∨
    (¬ (∀ v ∈ messages, v.IsMessage) ∧
      ¬ messages.StopsAt Value.IsMessage Value.CallsAstray ∧
      ∃ e, validateMessages getType context messages = .ok (some e)) ∨
    (messages.StopsAt Value.IsMessage Value.CallsAstray ∧
      ∃ f, validateMessages getType context messages = .error f) := by
  induction messages with
  | nil => exact .inl ⟨by simp, List.stopsAt_nil, rfl⟩
  | cons v messages ih =>
    rw [validateMessages, List.forall_mem_cons, List.stopsAt_cons]
    rcases validateMessage_cases getType context v with
      ⟨hmessage, hnot, hv⟩ | ⟨hmessage, hnot, e, hv⟩ | ⟨hastray, f, hv⟩
    · rw [hv, Except.ok_bind]
      rcases ih with ⟨hall, hstops, hrest⟩ | ⟨hall, hstops, hrest⟩ | ⟨hstops, hrest⟩
      · exact .inl ⟨⟨hmessage, hall⟩, fun h => hstops (h.resolve_left hnot).2, hrest⟩
      · exact .inr (.inl ⟨fun h => hall h.2, fun h => hstops (h.resolve_left hnot).2, hrest⟩)
      · exact .inr (.inr ⟨.inr ⟨hmessage, hstops⟩, hrest⟩)
    · rw [hv]
      refine .inr (.inl ⟨fun h => hmessage h.1, ?_, e, rfl⟩)
      rintro (h | h)
      · exact hnot h
      · exact hmessage h.1
    · rw [hv]
      exact .inr (.inr ⟨.inl hastray, f, rfl⟩)

/-- The check is exact unless the loop stops at a message without a content whose tool calls are no
array. -/
theorem validate_exact_iff (inputMap : List (String × Value)) :
    ChecksExactly inputMap (validateLanguageModelMessages getType context inputMap) ↔
      ∀ messages, inputMap.lookup "messages" = some (.array messages) →
        ¬ messages.StopsAt Value.IsMessage Value.CallsAstray := by
  unfold ChecksExactly HasMessages validateLanguageModelMessages
  cases hlookup : inputMap.lookup "messages" with
  | none =>
    refine iff_of_true (.inr ⟨?_, _, rfl⟩) fun messages h => by cases h
    rintro ⟨messages, h, -⟩
    cases h
  | some v =>
    cases v with
    | array messages =>
      have hthese : ∀ {P : List Value → Prop},
          (∀ messages', some (Value.array messages) = some (Value.array messages') → P messages') ↔
            P messages :=
        ⟨fun h => h messages rfl, fun h messages' heq => Value.array.inj (Option.some.inj heq) ▸ h⟩
      have hsome : (∃ messages', some (Value.array messages) = some (Value.array messages') ∧
          ∀ v ∈ messages', v.IsMessage) ↔ ∀ v ∈ messages, v.IsMessage :=
        ⟨fun ⟨_, heq, h⟩ => Value.array.inj (Option.some.inj heq) ▸ h, fun h => ⟨_, rfl, h⟩⟩
      rw [hthese, hsome]
      dsimp only
      rcases validateMessages_cases getType context messages with
        ⟨hall, hstops, hreply⟩ | ⟨hall, hstops, hreply⟩ | ⟨hstops, f, hreply⟩
      · exact iff_of_true (.inl ⟨hall, hreply⟩) hstops
      · exact iff_of_true (.inr ⟨hall, hreply⟩) hstops
      · rw [hreply]
        refine iff_of_false ?_ (not_not_intro hstops)
        rintro (⟨-, h⟩ | ⟨-, e, h⟩)
        · cases h
        · cases h
    | _ =>
      refine iff_of_true (.inr ⟨?_, _, rfl⟩) fun messages h => by cases h
      rintro ⟨messages, h, -⟩
      cases h

/-- An assistant message with tool calls that are a string, and no content. -/
theorem callsAstray_throws :
    validateLanguageModelMessages (fun _ => "") "infer" [("messages", .array [.map
        [("role", .string "assistant"), ("tool_calls", .string "")]])] =
      .error (.exception "key not exists: content") ∧
    ¬ ChecksExactly [("messages", .array [.map
          [("role", .string "assistant"), ("tool_calls", .string "")]])]
        (validateLanguageModelMessages (fun _ => "") "infer" [("messages", .array [.map
          [("role", .string "assistant"), ("tool_calls", .string "")]])]) := by
  have hthrows : validateLanguageModelMessages (fun _ => "") "infer" [("messages", .array [.map
      [("role", .string "assistant"), ("tool_calls", .string "")]])] =
        .error (.exception "key not exists: content") := rfl
  refine ⟨hthrows, ?_⟩
  rw [hthrows]
  rintro (⟨-, h⟩ | ⟨-, e, h⟩)
  · cases h
  · cases h

end Ailoy
