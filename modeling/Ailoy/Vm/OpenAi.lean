import Ailoy.Core.ValueEncoding

/-!
# The messages of the OpenAI engine

The structures of `vm/src/openai.hpp` and their `to_json` and `from_json` of `vm/src/openai.cpp`. An
optional field that is not set is written as `null`, and is not set either when it is missing. Only
the arguments of a function call have two forms: the writer takes the form from
`g_dump_function_call_arguments_as_string`, and the reader takes every string for a dumped value.
What the code uses of `nlohmann::json` to write and read texts is `JsonText`.
-/

namespace Ailoy

/-- `nlohmann::json::dump`, which throws for a string that is not UTF-8, and
`nlohmann::json::parse`. -/
structure JsonText where
  dump : Json → Except Fault String
  parse : String → Except Fault Json

namespace Json

/-- The object with these fields, set one after the other. -/
def ofFields (fields : List (String × Json)) : Json := .object (OrderedMap.ofEntries fields)

/-- `j[key]`, where `j.contains(key)`. -/
def find (j : Json) (key : String) : Option Json :=
  match j with
  | .object kvs => kvs.lookup key
  | _ => none

/-- `j.at(key)`. -/
def getAt (j : Json) (key : String) : Except Fault Json :=
  match j with
  | .object kvs =>
    match kvs.lookup key with
    | some v => .ok v
    | none => .error (.exception ("key '" ++ key ++ "' not found"))
  | _ => .error (.exception "cannot use at()")

/-- `j.get<std::string>()`. -/
def getString : Json → Except Fault String
  | .string s => .ok s
  | _ => .error (.exception "type must be string")

/-- The `std::vector` with these elements, as JSON. -/
def ofVector {α : Type} (write : α → Except Fault Json) (as : List α) : Except Fault Json :=
  (as.mapM write).map .array

/-- `j.get<std::vector<T>>()`. -/
def getVector {α : Type} (read : Json → Except Fault α) : Json → Except Fault (List α)
  | .array js => js.mapM read
  | _ => .error (.exception "type must be array")

/-- The `std::optional` with this value, as JSON. -/
def ofOptional {α : Type} (write : α → Except Fault Json) : Option α → Except Fault Json
  | none => .ok .null
  | some a => write a

/-- The value of an optional field. -/
def getOptional {α : Type} (read : Json → Except Fault α) : Json → Except Fault (Option α)
  | .null => .ok none
  | j => (read j).map some

/-- An optional field, which may be missing. -/
def findOptional {α : Type} (read : Json → Except Fault α) (j : Json) (key : String) :
    Except Fault (Option α) :=
  match j.find key with
  | none => .ok none
  | some v => getOptional read v

/-- An optional string, as JSON. -/
def ofOptionalString : Option String → Json
  | none => .null
  | some s => .string s

end Json

/-- `openai_chat_function_call_t`. -/
structure OpenaiChatFunctionCall where
  name : String
  arguments : Option Json

/-- `openai_chat_tool_call_t`. -/
structure OpenaiChatToolCall where
  id : String
  type : String
  function : OpenaiChatFunctionCall

/-- `openai_chat_completion_message_t`. -/
structure OpenaiChatCompletionMessage where
  role : String
  content : Option String
  name : Option String
  toolCalls : Option (List OpenaiChatToolCall)
  toolCallId : Option String

/-- `openai_chat_function_t`. -/
structure OpenaiChatFunction where
  name : String
  description : Option String
  parameters : Json

/-- `openai_chat_tool_t`. -/
structure OpenaiChatTool where
  type : String
  function : OpenaiChatFunction

/-- `openai_chat_completion_request_t`. -/
structure OpenaiChatCompletionRequest where
  messages : List OpenaiChatCompletionMessage
  model : Option String
  tools : Option (List OpenaiChatTool)

namespace OpenaiChatFunctionCall

/-- `to_json`. The flag is `g_dump_function_call_arguments_as_string`. -/
def toJson (text : JsonText) (dumpAsString : Bool) (obj : OpenaiChatFunctionCall) :
    Except Fault Json :=
  match obj.arguments with
  | none => .ok (.ofFields [("name", .string obj.name)])
  | some arguments => do
    let written ← if dumpAsString then (text.dump arguments).map .string else .ok arguments
    return .ofFields [("name", .string obj.name), ("arguments", written)]

/-- `from_json`. -/
def fromJson (text : JsonText) (j : Json) : Except Fault OpenaiChatFunctionCall := do
  let name ← j.getAt "name" >>= Json.getString
  match j.find "arguments" with
  | none => return ⟨name, none⟩
  | some (.string s) =>
    let arguments ← text.parse s
    return ⟨name, some arguments⟩
  | some arguments => return ⟨name, some arguments⟩

end OpenaiChatFunctionCall

namespace OpenaiChatToolCall

def toJson (text : JsonText) (dumpAsString : Bool) (obj : OpenaiChatToolCall) :
    Except Fault Json := do
  let function ← obj.function.toJson text dumpAsString
  return .ofFields [("id", .string obj.id), ("type", .string obj.type), ("function", function)]

def fromJson (text : JsonText) (j : Json) : Except Fault OpenaiChatToolCall := do
  let id ← j.getAt "id" >>= Json.getString
  let type ← j.getAt "type" >>= Json.getString
  let function ← j.getAt "function" >>= OpenaiChatFunctionCall.fromJson text
  return ⟨id, type, function⟩

end OpenaiChatToolCall

namespace OpenaiChatCompletionMessage

def toJson (text : JsonText) (dumpAsString : Bool) (obj : OpenaiChatCompletionMessage) :
    Except Fault Json := do
  let toolCalls ← Json.ofOptional (Json.ofVector (OpenaiChatToolCall.toJson text dumpAsString))
    obj.toolCalls
  return .ofFields [("role", .string obj.role), ("content", .ofOptionalString obj.content),
    ("name", .ofOptionalString obj.name), ("tool_calls", toolCalls),
    ("tool_call_id", .ofOptionalString obj.toolCallId)]

def fromJson (text : JsonText) (j : Json) : Except Fault OpenaiChatCompletionMessage := do
  let role ← j.getAt "role" >>= Json.getString
  let content ← j.findOptional Json.getString "content"
  let name ← j.findOptional Json.getString "name"
  let toolCalls ← j.findOptional (Json.getVector (OpenaiChatToolCall.fromJson text)) "tool_calls"
  let toolCallId ← j.findOptional Json.getString "tool_call_id"
  return ⟨role, content, name, toolCalls, toolCallId⟩

end OpenaiChatCompletionMessage

namespace OpenaiChatFunction

def toJson (obj : OpenaiChatFunction) : Json :=
  .ofFields [("name", .string obj.name), ("parameters", obj.parameters),
    ("description", .ofOptionalString obj.description)]

def fromJson (j : Json) : Except Fault OpenaiChatFunction := do
  let name ← j.getAt "name" >>= Json.getString
  let parameters ← j.getAt "parameters"
  let description ← j.findOptional Json.getString "description"
  return ⟨name, description, parameters⟩

end OpenaiChatFunction

namespace OpenaiChatTool

def toJson (obj : OpenaiChatTool) : Json :=
  .ofFields [("type", .string obj.type), ("function", obj.function.toJson)]

def fromJson (j : Json) : Except Fault OpenaiChatTool := do
  let type ← j.getAt "type" >>= Json.getString
  let function ← j.getAt "function" >>= OpenaiChatFunction.fromJson
  return ⟨type, function⟩

end OpenaiChatTool

namespace OpenaiChatCompletionRequest

def toJson (text : JsonText) (dumpAsString : Bool) (obj : OpenaiChatCompletionRequest) :
    Except Fault Json := do
  let messages ← Json.ofVector (OpenaiChatCompletionMessage.toJson text dumpAsString) obj.messages
  let tools ← Json.ofOptional (Json.ofVector fun tool => .ok (OpenaiChatTool.toJson tool)) obj.tools
  return .ofFields [("messages", messages), ("model", .ofOptionalString obj.model), ("tools", tools)]

def fromJson (text : JsonText) (j : Json) : Except Fault OpenaiChatCompletionRequest := do
  let messages ← j.getAt "messages" >>=
    Json.getVector (OpenaiChatCompletionMessage.fromJson text)
  let model ← j.findOptional Json.getString "model"
  let tools ← j.findOptional (Json.getVector OpenaiChatTool.fromJson) "tools"
  return ⟨messages, model, tools⟩

end OpenaiChatCompletionRequest

end Ailoy
