import Ailoy.Lib.Codec
import Ailoy.Vm.OpenAi

/-!
# What comes back of a message

A message that is written and read comes back as it was, but for the arguments of its function
calls: a dumped value comes back as the library's reader makes it, in which a non-negative integer
is unsigned. Where the arguments are written as they are, a string is taken for a dumped value, and
what comes back is never that string (`codec_round_trip_iff`).
-/

namespace Ailoy

open Codec (RoundTrips)

/-! ## JSON values and texts -/

namespace JsonText

/-- A value that is dumped and parsed is read back. -/
def Inverts (text : JsonText) (v : Json) : Prop :=
  ∃ s, text.dump v = .ok s ∧ text.parse s = .ok v.readBack

/-- A text that denotes a string is longer than the string: it has its quotes, and no escape is
shorter than what it stands for. -/
def Quotes (text : JsonText) : Prop := ∀ s t, text.parse s = .ok (.string t) → t.length < s.length

end JsonText

namespace Json

/-- The values are equal, as `nlohmann::json` compares them: an integer is its number. -/
def Same (v w : Json) : Prop := v.readBack = w.readBack

theorem readBack_string {v : Json} {s : String} (h : v.readBack = .string s) : v = .string s := by
  cases v with
  | string t => exact h
  | numberInteger n =>
    unfold readBack at h
    split_ifs at h
  | _ => cases h

theorem readBackFloat_readBackFloat (bits : UInt64) :
    readBackFloat (readBackFloat bits) = readBackFloat bits := by
  by_cases h : BinaryFloat.binary64.isNan bits.toNat = true
  · have hbits : readBackFloat bits = quietNan := if_pos h
    rw [hbits]
    rfl
  · have hbits : readBackFloat bits = bits := if_neg h
    rw [hbits, hbits]

mutual

/-- Reading back changes nothing the second time. -/
theorem readBack_readBack : ∀ v : Json, v.readBack.readBack = v.readBack
  | .numberInteger n => by
    by_cases hn : 0 ≤ n
    · rw [readBack, if_pos hn, readBack]
    · rw [readBack, if_neg hn, readBack, if_neg hn]
  | .numberFloat bits => by rw [readBack, readBack, readBackFloat_readBackFloat]
  | .array js => by rw [readBack, readBack, readBackArray_readBackArray js]
  | .object kvs => by rw [readBack, readBack, readBackEntries_readBackEntries kvs]
  | .null => rfl
  | .boolean _ => rfl
  | .numberUnsigned _ => rfl
  | .string _ => rfl
  | .binary _ _ => rfl

theorem readBackArray_readBackArray :
    ∀ js : List Json, readBackArray (readBackArray js) = readBackArray js
  | [] => rfl
  | j :: js => by
    rw [readBackArray, readBackArray, readBack_readBack j, readBackArray_readBackArray js]

theorem readBackEntries_readBackEntries :
    ∀ kvs : List (String × Json), readBackEntries (readBackEntries kvs) = readBackEntries kvs
  | [] => rfl
  | (key, j) :: kvs => by
    rw [readBackEntries, readBackEntries, readBack_readBack j, readBackEntries_readBackEntries kvs]

end

/-! ## Objects -/

/-- The last field with a name is found. -/
theorem find_ofFields (fields : List (String × Json)) (key : String) :
    (ofFields fields).find key = fields.reverse.lookup key := OrderedMap.lookup_ofEntries key fields

theorem getAt_ofFields {fields : List (String × Json)} {key : String} {v : Json}
    (h : fields.reverse.lookup key = some v) : (ofFields fields).getAt key = .ok v := by
  unfold ofFields getAt
  dsimp only
  rw [OrderedMap.lookup_ofEntries, h]

theorem findOptional_ofFields {α : Type} (read : Json → Except Fault α)
    {fields : List (String × Json)} {key : String} {v : Json}
    (h : fields.reverse.lookup key = some v) :
    (ofFields fields).findOptional read key = getOptional read v := by
  unfold findOptional
  rw [find_ofFields, h]

/-- An optional string comes back. -/
theorem getOptional_ofOptionalString (o : Option String) :
    getOptional getString (ofOptionalString o) = .ok o := by
  cases o with
  | none => rfl
  | some s => rfl

/-! ## Vectors and optional fields -/

section Composed

variable {α : Type} {write : α → Except Fault Json} {read : Json → Except Fault α}
  {same : α → α → Prop}

/-- A vector comes back exactly when its elements do. -/
theorem roundTrips_ofVector_iff {as : List α} :
    RoundTrips (ofVector write) (getVector read) (List.Forall₂ same) as ↔
      ∀ a ∈ as, RoundTrips write read same a := by
  rw [← Codec.roundTrips_mapM_iff]
  exact Codec.roundTrips_part_iff (g := id) rfl (fun _ => (congrFun Except.map_id _).symm) fun _ => Iff.rfl

theorem getOptional_of_ne {v : Json} (h : v ≠ .null) :
    getOptional read v = (read v).map some := by
  cases v with
  | null => exact absurd rfl h
  | _ => rfl

/-- No vector is written as `null`. -/
theorem ofVector_ne_null (write : α → Except Fault Json) (as : List α) :
    ofVector write as ≠ .ok .null := by
  intro h
  obtain ⟨js, -, hjs⟩ := Except.map_eq_ok_iff.mp h
  cases hjs

/-- An optional value comes back exactly when the value does, if no value is written as `null`. -/
theorem roundTrips_ofOptional_iff (hnull : ∀ a, write a ≠ .ok .null) {o : Option α} :
    RoundTrips (ofOptional write) (getOptional read) (Option.Rel same) o ↔
      ∀ a ∈ o, RoundTrips write read same a := by
  cases o with
  | none =>
    constructor
    · simp
    · exact fun _ => ⟨.null, none, rfl, rfl, .none⟩
  | some a =>
    constructor
    · rintro ⟨t, b, hwrite, hread, hsame⟩ a' ha'
      obtain rfl := Option.some.inj ha'
      have hne : t ≠ .null := fun h => hnull a (h ▸ hwrite)
      rw [getOptional_of_ne hne, Except.map_eq_ok_iff] at hread
      obtain ⟨b', hb', rfl⟩ := hread
      cases hsame with
      | some hsame => exact ⟨t, b', hwrite, hb', hsame⟩
    · intro h
      obtain ⟨t, b, hwrite, hread, hsame⟩ := h a rfl
      have hne : t ≠ .null := fun h => hnull a (h ▸ hwrite)
      refine ⟨t, some b, hwrite, ?_, .some hsame⟩
      rw [getOptional_of_ne hne, hread]
      rfl

end Composed

end Json

/-! ## Messages and requests -/

variable {text : JsonText} {dumpAsString : Bool}

namespace OpenaiChatFunctionCall

/-- The calls are the same, with arguments that compare as equal. -/
def Same (a b : OpenaiChatFunctionCall) : Prop :=
  a.name = b.name ∧ Option.Rel Json.Same a.arguments b.arguments

/-- What is read of a function call with arguments: the value in a string, or the value itself. -/
theorem fromJson_arguments (name : String) (written : Json) :
    fromJson text (.ofFields [("name", .string name), ("arguments", written)]) =
      match written with
      | .string s => (text.parse s).map fun v => ⟨name, some v⟩
      | v => .ok ⟨name, some v⟩ := by
  have hfind : (Json.ofFields [("name", .string name), ("arguments", written)]).find "arguments" =
      some written := Json.find_ofFields ..
  unfold fromJson
  rw [Json.getAt_ofFields rfl, hfind]
  cases written with
  | string s =>
    simp only [Except.ok_bind, Json.getString]
    cases text.parse s with
    | error f => rfl
    | ok v => rfl
  | _ => rfl

/-- A function call comes back unless its arguments are a string that is written as it is. -/
theorem comesBack_iff (hquotes : text.Quotes) {obj : OpenaiChatFunctionCall}
    (hinverts : ∀ v ∈ obj.arguments, text.Inverts v) :
    RoundTrips (toJson text dumpAsString) (fromJson text) Same obj ↔
      dumpAsString = true ∨ ∀ s, obj.arguments ≠ some (.string s) := by
  obtain ⟨name, arguments⟩ := obj
  cases arguments with
  | none =>
    refine iff_of_true ⟨_, ⟨name, none⟩, rfl, ?_, rfl, .none⟩ (.inr fun s => by simp)
    unfold fromJson
    rw [Json.getAt_ofFields rfl, Json.find_ofFields]
    rfl
  | some v =>
    cases dumpAsString with
    | true =>
      obtain ⟨s, hdump, hparse⟩ := hinverts v rfl
      refine iff_of_true ⟨.ofFields [("name", .string name), ("arguments", .string s)],
        ⟨name, some v.readBack⟩, ?_, ?_, rfl, .some v.readBack_readBack⟩ (.inl rfl)
      · unfold toJson
        dsimp only
        rw [if_pos rfl, hdump]
        rfl
      · rw [fromJson_arguments]
        dsimp only
        rw [hparse]
        rfl
    | false =>
      have hwrite : toJson text false ⟨name, some v⟩ =
          .ok (.ofFields [("name", .string name), ("arguments", v)]) := rfl
      constructor
      · rintro ⟨t, b, ht, hread, hsame⟩
        obtain rfl := Except.ok.inj (hwrite.symm.trans ht)
        refine .inr fun s hs => ?_
        obtain rfl := Option.some.inj hs
        -- The string is parsed, and the text of a string is longer than the string.
        rw [fromJson_arguments] at hread
        obtain ⟨w, hw, rfl⟩ := Except.map_eq_ok_iff.mp hread
        cases hsame.2 with
        | some hsame =>
          have hstring : w = .string s := Json.readBack_string hsame
          rw [hstring] at hw
          exact absurd (hquotes s s hw) (Nat.lt_irrefl _)
      · intro h
        have hstring : ∀ s, v ≠ .string s := fun s hs =>
          h.resolve_left (by decide) s (congrArg some hs)
        refine ⟨_, ⟨name, some v⟩, hwrite, ?_, rfl, .some rfl⟩
        rw [fromJson_arguments]
        cases v with
        | string s => exact absurd rfl (hstring s)
        | _ => rfl

end OpenaiChatFunctionCall

namespace OpenaiChatToolCall

def Same (a b : OpenaiChatToolCall) : Prop :=
  a.id = b.id ∧ a.type = b.type ∧ a.function.Same b.function

/-- A tool call comes back exactly when its function does. -/
theorem roundTrips_function_iff {obj : OpenaiChatToolCall} :
    RoundTrips (toJson text dumpAsString) (fromJson text) Same obj ↔
      RoundTrips (OpenaiChatFunctionCall.toJson text dumpAsString)
        (OpenaiChatFunctionCall.fromJson text) OpenaiChatFunctionCall.Same obj.function := by
  refine Codec.roundTrips_part_iff (g := fun f => ⟨obj.id, obj.type, f⟩) (f := fun f =>
    .ofFields [("id", .string obj.id), ("type", .string obj.type), ("function", f)]) ?_ ?_ ?_
  · unfold toJson
    cases obj.function.toJson text dumpAsString with
    | error f => rfl
    | ok j => rfl
  · intro j
    unfold fromJson
    rw [Json.getAt_ofFields rfl, Json.getAt_ofFields rfl, Json.getAt_ofFields rfl]
    simp only [Except.ok_bind, Json.getString]
    cases OpenaiChatFunctionCall.fromJson text j with
    | error f => rfl
    | ok b => rfl
  · exact fun f => ⟨fun h => h.2.2, fun h => ⟨rfl, rfl, h⟩⟩

end OpenaiChatToolCall

namespace OpenaiChatCompletionMessage

/-- The messages are the same, with tool calls that are the same. -/
def Same (a b : OpenaiChatCompletionMessage) : Prop :=
  a.role = b.role ∧ a.content = b.content ∧ a.name = b.name ∧
    Option.Rel (List.Forall₂ OpenaiChatToolCall.Same) a.toolCalls b.toolCalls ∧
    a.toolCallId = b.toolCallId

/-- A message comes back exactly when its tool calls do. -/
theorem roundTrips_toolCalls_iff {obj : OpenaiChatCompletionMessage} :
    RoundTrips (toJson text dumpAsString) (fromJson text) Same obj ↔
      ∀ calls ∈ obj.toolCalls, ∀ call ∈ calls,
        RoundTrips (OpenaiChatToolCall.toJson text dumpAsString)
          (OpenaiChatToolCall.fromJson text) OpenaiChatToolCall.Same call := by
  have hpart : RoundTrips (toJson text dumpAsString) (fromJson text) Same obj ↔
      RoundTrips (Json.ofOptional (Json.ofVector (OpenaiChatToolCall.toJson text dumpAsString)))
        (Json.getOptional (Json.getVector (OpenaiChatToolCall.fromJson text)))
        (Option.Rel (List.Forall₂ OpenaiChatToolCall.Same)) obj.toolCalls := by
    refine Codec.roundTrips_part_iff
      (g := fun calls => ⟨obj.role, obj.content, obj.name, calls, obj.toolCallId⟩)
      (f := fun calls => .ofFields [("role", .string obj.role),
        ("content", .ofOptionalString obj.content), ("name", .ofOptionalString obj.name),
        ("tool_calls", calls), ("tool_call_id", .ofOptionalString obj.toolCallId)]) ?_ ?_ ?_
    · unfold toJson
      cases Json.ofOptional (Json.ofVector (OpenaiChatToolCall.toJson text dumpAsString))
          obj.toolCalls with
      | error f => rfl
      | ok j => rfl
    · intro j
      unfold fromJson
      rw [Json.getAt_ofFields rfl, Json.findOptional_ofFields _ rfl,
        Json.findOptional_ofFields _ rfl, Json.findOptional_ofFields _ rfl,
        Json.findOptional_ofFields _ rfl]
      simp only [Except.ok_bind, Json.getString, Json.getOptional_ofOptionalString]
      cases Json.getOptional (Json.getVector (OpenaiChatToolCall.fromJson text)) j with
      | error f => rfl
      | ok b => rfl
    · exact fun calls => ⟨fun h => h.2.2.2.1, fun h => ⟨rfl, rfl, rfl, h, rfl⟩⟩
  rw [hpart, Json.roundTrips_ofOptional_iff (Json.ofVector_ne_null _)]
  simp only [Json.roundTrips_ofVector_iff]

/-- The arguments of the function calls of a message. -/
def arguments (obj : OpenaiChatCompletionMessage) : List Json :=
  (obj.toolCalls.getD []).filterMap fun call => call.function.arguments

theorem mem_arguments {obj : OpenaiChatCompletionMessage} {v : Json} : v ∈ obj.arguments ↔
    ∃ calls ∈ obj.toolCalls, ∃ call ∈ calls, call.function.arguments = some v := by
  unfold arguments
  rw [List.mem_filterMap]
  cases obj.toolCalls with
  | none => simp
  | some calls => simp

/-- A message comes back unless arguments are a string that is written as it is. -/
theorem comesBack_iff (hquotes : text.Quotes) {obj : OpenaiChatCompletionMessage}
    (hinverts : ∀ v ∈ obj.arguments, text.Inverts v) :
    RoundTrips (toJson text dumpAsString) (fromJson text) Same obj ↔
      dumpAsString = true ∨ ∀ s, .string s ∉ obj.arguments := by
  have hcall : ∀ calls ∈ obj.toolCalls, ∀ call ∈ calls,
      (RoundTrips (OpenaiChatToolCall.toJson text dumpAsString)
        (OpenaiChatToolCall.fromJson text) OpenaiChatToolCall.Same call ↔
        dumpAsString = true ∨ ∀ s, call.function.arguments ≠ some (.string s)) := by
    intro calls hcalls call hmem
    rw [OpenaiChatToolCall.roundTrips_function_iff]
    exact OpenaiChatFunctionCall.comesBack_iff hquotes fun v hv =>
      hinverts v (mem_arguments.mpr ⟨calls, hcalls, call, hmem, hv⟩)
  rw [roundTrips_toolCalls_iff]
  constructor
  · intro h
    by_cases hdump : dumpAsString = true
    · exact .inl hdump
    · refine .inr fun s hs => ?_
      obtain ⟨calls, hcalls, call, hmem, harguments⟩ := mem_arguments.mp hs
      have hnot := ((hcall calls hcalls call hmem).mp (h calls hcalls call hmem)).resolve_left hdump
      exact hnot s harguments
  · intro h calls hcalls call hmem
    refine (hcall calls hcalls call hmem).mpr (h.imp_right fun hnone s hs => ?_)
    exact hnone s (mem_arguments.mpr ⟨calls, hcalls, call, hmem, hs⟩)

end OpenaiChatCompletionMessage

namespace OpenaiChatTool

/-- Tools come back as they are. -/
theorem roundTrips (obj : OpenaiChatTool) :
    RoundTrips (fun tool => .ok (toJson tool)) fromJson Eq obj := by
  refine ⟨_, obj, rfl, ?_, rfl⟩
  unfold toJson fromJson OpenaiChatFunction.toJson
  rw [Json.getAt_ofFields rfl, Json.getAt_ofFields rfl]
  simp only [Except.ok_bind, Json.getString, OpenaiChatFunction.fromJson]
  rw [Json.getAt_ofFields rfl, Json.getAt_ofFields rfl, Json.findOptional_ofFields _ rfl]
  simp only [Except.ok_bind, Json.getString, Json.getOptional_ofOptionalString]
  rfl

end OpenaiChatTool

namespace OpenaiChatCompletionRequest

/-- The requests are the same, with messages that are the same. -/
def Same (a b : OpenaiChatCompletionRequest) : Prop :=
  List.Forall₂ OpenaiChatCompletionMessage.Same a.messages b.messages ∧ a.model = b.model ∧
    a.tools = b.tools

/-- The arguments of the function calls of a request. -/
def arguments (obj : OpenaiChatCompletionRequest) : List Json :=
  obj.messages.flatMap fun m => m.arguments

/-- The tools of a request come back as they are. -/
theorem getOptional_tools (tools : Option (List OpenaiChatTool)) :
    ∃ t, Json.ofOptional (Json.ofVector fun tool => .ok (OpenaiChatTool.toJson tool)) tools =
        .ok t ∧
      Json.getOptional (Json.getVector OpenaiChatTool.fromJson) t = .ok tools := by
  have htrip : RoundTrips
      (Json.ofOptional (Json.ofVector fun tool => .ok (OpenaiChatTool.toJson tool)))
      (Json.getOptional (Json.getVector OpenaiChatTool.fromJson))
      (Option.Rel (List.Forall₂ Eq)) tools :=
    (Json.roundTrips_ofOptional_iff (Json.ofVector_ne_null _)).mpr fun _ _ =>
      Json.roundTrips_ofVector_iff.mpr fun tool _ => tool.roundTrips
  obtain ⟨t, tools', hwrite, hread, hsame⟩ := htrip
  rw [List.forall₂_eq_eq_eq] at hsame
  refine ⟨t, hwrite, hread.trans (congrArg Except.ok ?_)⟩
  cases hsame with
  | none => rfl
  | some h => rw [h]

/-- A request comes back exactly when its messages do. -/
theorem roundTrips_messages_iff {obj : OpenaiChatCompletionRequest} :
    RoundTrips (toJson text dumpAsString) (fromJson text) Same obj ↔
      ∀ m ∈ obj.messages, RoundTrips (OpenaiChatCompletionMessage.toJson text dumpAsString)
        (OpenaiChatCompletionMessage.fromJson text) OpenaiChatCompletionMessage.Same m := by
  obtain ⟨tools, hwrite, hread⟩ := getOptional_tools obj.tools
  rw [← Json.roundTrips_ofVector_iff]
  refine Codec.roundTrips_part_iff (g := fun messages => ⟨messages, obj.model, obj.tools⟩)
    (f := fun messages => .ofFields [("messages", messages),
      ("model", .ofOptionalString obj.model), ("tools", tools)]) ?_ ?_ ?_
  · unfold toJson
    rw [hwrite]
    cases Json.ofVector (OpenaiChatCompletionMessage.toJson text dumpAsString) obj.messages with
    | error f => rfl
    | ok j => rfl
  · intro j
    unfold fromJson
    rw [Json.getAt_ofFields rfl, Json.findOptional_ofFields _ rfl,
      Json.findOptional_ofFields _ rfl, hread]
    simp only [Except.ok_bind, Json.getOptional_ofOptionalString]
    cases Json.getVector (OpenaiChatCompletionMessage.fromJson text) j with
    | error f => rfl
    | ok b => rfl
  · exact fun messages => ⟨fun h => h.1, fun h => ⟨h, rfl, rfl⟩⟩

/-- A request comes back unless arguments are a string that is written as it is. -/
theorem comesBack_iff (hquotes : text.Quotes) {obj : OpenaiChatCompletionRequest}
    (hinverts : ∀ v ∈ obj.arguments, text.Inverts v) :
    RoundTrips (toJson text dumpAsString) (fromJson text) Same obj ↔
      dumpAsString = true ∨ ∀ s, .string s ∉ obj.arguments := by
  have hmessage : ∀ m ∈ obj.messages,
      (RoundTrips (OpenaiChatCompletionMessage.toJson text dumpAsString)
        (OpenaiChatCompletionMessage.fromJson text) OpenaiChatCompletionMessage.Same m ↔
        dumpAsString = true ∨ ∀ s, .string s ∉ m.arguments) := fun m hm =>
    OpenaiChatCompletionMessage.comesBack_iff hquotes fun v hv =>
      hinverts v (List.mem_flatMap.mpr ⟨m, hm, hv⟩)
  rw [roundTrips_messages_iff]
  constructor
  · intro h
    by_cases hdump : dumpAsString = true
    · exact .inl hdump
    · refine .inr fun s hs => ?_
      obtain ⟨m, hm, hmem⟩ := List.mem_flatMap.mp hs
      exact ((hmessage m hm).mp (h m hm)).resolve_left hdump s hmem
  · intro h m hm
    refine (hmessage m hm).mpr (h.imp_right fun hnone s hs => ?_)
    exact hnone s (List.mem_flatMap.mpr ⟨m, hm, hs⟩)

end OpenaiChatCompletionRequest

/-- With either form of the arguments, a message and a request come back as they were if and only if
the arguments are dumped or none of them is a string. -/
theorem codec_round_trip_iff (text : JsonText) (hquotes : text.Quotes) (dumpAsString : Bool)
    (m : OpenaiChatCompletionMessage) (hm : ∀ v ∈ m.arguments, text.Inverts v)
    (r : OpenaiChatCompletionRequest) (hr : ∀ v ∈ r.arguments, text.Inverts v) :
    (RoundTrips (OpenaiChatCompletionMessage.toJson text dumpAsString)
        (OpenaiChatCompletionMessage.fromJson text) OpenaiChatCompletionMessage.Same m ↔
      dumpAsString = true ∨ ∀ s, .string s ∉ m.arguments) ∧
    (RoundTrips (OpenaiChatCompletionRequest.toJson text dumpAsString)
        (OpenaiChatCompletionRequest.fromJson text) OpenaiChatCompletionRequest.Same r ↔
      dumpAsString = true ∨ ∀ s, .string s ∉ r.arguments) :=
  ⟨OpenaiChatCompletionMessage.comesBack_iff hquotes hm,
    OpenaiChatCompletionRequest.comesBack_iff hquotes hr⟩

/-- The texts of the empty object and of the string `abc`. -/
def sampleText : JsonText where
  dump
    | .object [] => .ok "\x7b\x7d"
    | .string "abc" => .ok "\"abc\""
    | _ => .error (.exception "not dumped")
  parse s :=
    if s = "\x7b\x7d" then .ok (.object [])
    else if s = "\"abc\"" then .ok (.string "abc")
    else .error (.exception "parse_error")

theorem quotes_sampleText : sampleText.Quotes := by
  intro s t h
  unfold sampleText at h
  dsimp only at h
  split_ifs at h with hobject hstring
  · cases h
  · cases h
    rw [hstring]
    decide

/-- A message with one tool call. -/
def callMessage (arguments : Json) : OpenaiChatCompletionMessage :=
  ⟨"assistant", none, none, some [⟨"call_0", "function", ⟨"f", some arguments⟩⟩], none⟩

theorem inverts_callMessage {v : Json} (h : sampleText.Inverts v) :
    ∀ w ∈ (callMessage v).arguments, sampleText.Inverts w := by
  intro w hw
  rw [show (callMessage v).arguments = [v] from rfl, List.mem_singleton] at hw
  rwa [hw]

/-- A call with the empty object as arguments. -/
theorem codec_round_trip_iff_object :
    (RoundTrips (OpenaiChatCompletionMessage.toJson sampleText true)
        (OpenaiChatCompletionMessage.fromJson sampleText) OpenaiChatCompletionMessage.Same
        (callMessage (.object [])) ↔
      true = true ∨ ∀ s, .string s ∉ (callMessage (.object [])).arguments) ∧
    (RoundTrips (OpenaiChatCompletionRequest.toJson sampleText true)
        (OpenaiChatCompletionRequest.fromJson sampleText) OpenaiChatCompletionRequest.Same
        ⟨[callMessage (.object [])], none, none⟩ ↔
      true = true ∨
        ∀ s, .string s ∉ OpenaiChatCompletionRequest.arguments
          ⟨[callMessage (.object [])], none, none⟩) :=
  codec_round_trip_iff sampleText quotes_sampleText true (callMessage (.object []))
    (inverts_callMessage ⟨_, rfl, rfl⟩) ⟨[callMessage (.object [])], none, none⟩ (by
      intro w hw
      obtain ⟨m, hm, hw⟩ := List.mem_flatMap.mp hw
      rw [List.mem_singleton.mp hm] at hw
      exact inverts_callMessage ⟨_, rfl, rfl⟩ w hw)

/-- A call with the string `abc` as arguments does not come back when they are not dumped. -/
theorem string_arguments_lost :
    sampleText.Quotes ∧ (∀ v ∈ (callMessage (.string "abc")).arguments, sampleText.Inverts v) ∧
      ¬ RoundTrips (OpenaiChatCompletionMessage.toJson sampleText false)
        (OpenaiChatCompletionMessage.fromJson sampleText) OpenaiChatCompletionMessage.Same
        (callMessage (.string "abc")) := by
  have hinverts := inverts_callMessage (v := .string "abc") ⟨_, rfl, rfl⟩
  refine ⟨quotes_sampleText, hinverts, fun h => ?_⟩
  have hcases := (OpenaiChatCompletionMessage.comesBack_iff quotes_sampleText hinverts).mp h
  exact hcases.resolve_left (by decide) "abc" (List.mem_singleton.mpr rfl)

end Ailoy
