import Forge.Session.Conversation
import Forge.Utils.JsonObject

/-! # Messages as JSON

  `Message::to_json` and `Message::from_json` (`llm/message.h`), and
  `Conversation::to_json` (`session/conversation.h`). An exception of the
  JSON library is `none`.

  The encoder leaves fields out: the content of an assistant message with
  tool calls and without text, the calls and the call id when there are
  none. The decoder takes the default for what is left out, and for a
  content that is null.
-/

namespace Forge

/-- One element of `tool_calls`. -/
def ToolCall.toJson (tc : ToolCall) : Json :=
  .ofPairs [("id", .string tc.id), ("type", .string "function"),
    ("function", .ofPairs [("name", .string tc.name), ("arguments", .string tc.argumentsJson)])]

/-- `j["content"]`, or no such field. -/
def Message.writeContent (m : Message) (j : List (String × Json)) : List (String × Json) :=
  if m.content ≠ "" then Json.insertField "content" (.string m.content) j
  else if m.role ≠ "assistant" ∨ m.toolCalls = [] then Json.insertField "content" .null j
  else j

def Message.writeToolCalls (m : Message) (j : List (String × Json)) : List (String × Json) :=
  if m.toolCalls ≠ [] then
    Json.insertField "tool_calls" (.array (m.toolCalls.map ToolCall.toJson)) j
  else j

def Message.writeToolCallId (m : Message) (j : List (String × Json)) : List (String × Json) :=
  if m.toolCallId ≠ "" then Json.insertField "tool_call_id" (.string m.toolCallId) j else j

/-- Serialize to OpenAI JSON format. -/
def Message.toJson (m : Message) : Json :=
  .object (m.writeToolCallId (m.writeToolCalls (m.writeContent
    (Json.insertField "role" (.string m.role) []))))

/-- One turn of the loop over `j["tool_calls"]`. -/
def ToolCall.fromJson (tc : Json) : Option ToolCall := do
  let id ← tc.value Json.getString "id" ""
  match tc.field? "function" with
  | some function =>
      let name ← function.value Json.getString "name" ""
      let argumentsJson ← function.value Json.getString "arguments" ""
      some ⟨id, name, argumentsJson⟩
  | none => some ⟨id, "", ""⟩

def Message.readContent (j : Json) : Option String :=
  match j.field? "content" with
  | some content => if content.isNull then some "" else content.getString
  | none => some ""

def Message.readToolCalls (j : Json) : Option (List ToolCall) :=
  match j.field? "tool_calls" with
  | some calls => calls.items.mapM ToolCall.fromJson
  | none => some []

def Message.readToolCallId (j : Json) : Option String :=
  match j.field? "tool_call_id" with
  | some id => id.getString
  | none => some ""

/-- Parse from OpenAI JSON response. -/
def Message.fromJson (j : Json) : Option Message := do
  let role ← j.value Json.getString "role" ""
  let content ← readContent j
  let toolCalls ← readToolCalls j
  let toolCallId ← readToolCallId j
  some { role, content, toolCalls, toolCallId }

/-- Serialize all messages to a JSON array. -/
def Conversation.toJson (c : Conversation) : Json := .array (c.messages.map Message.toJson)

/-! ### What the Decoder Finds -/

variable {m : Message} {fields : List (String × Json)} {key : String}

/-- Reading a string field that is there. -/
theorem Json.value_getString {s default : String}
    (h : (Json.object fields).field? key = some (.string s)) :
    (Json.object fields).value Json.getString key default = some s := by
  simp [Json.value, h, Json.getString]

theorem ToolCall.fromJson_toJson (tc : ToolCall) : fromJson tc.toJson = some tc := by
  have hname : (Json.object (Json.insertField "arguments" (.string tc.argumentsJson)
      (Json.insertField "name" (.string tc.name) []))).value Json.getString "name" "" =
        some tc.name := by
    apply Json.value_getString
    rw [Json.field?_insertField_of_ne (by decide), Json.field?_insertField_self]
  have harguments : (Json.object (Json.insertField "arguments" (.string tc.argumentsJson)
      (Json.insertField "name" (.string tc.name) []))).value Json.getString "arguments" "" =
        some tc.argumentsJson := Json.value_getString Json.field?_insertField_self
  have hid : tc.toJson.value Json.getString "id" "" = some tc.id := by
    apply Json.value_getString
    simp only [List.foldl_cons, List.foldl_nil]
    rw [Json.field?_insertField_of_ne (by decide), Json.field?_insertField_of_ne (by decide),
      Json.field?_insertField_self]
  have hfunction : tc.toJson.field? "function" = some (.object (Json.insertField "arguments"
      (.string tc.argumentsJson) (Json.insertField "name" (.string tc.name) []))) :=
    Json.field?_insertField_self
  simp [fromJson, hid, hfunction, hname, harguments]

theorem ToolCall.mapM_fromJson (calls : List ToolCall) :
    (calls.map toJson).mapM fromJson = some calls := by
  induction calls with
  | nil => rfl
  | cons tc calls ih => simp [fromJson_toJson, ih]

namespace Message

/-- Writing one field does not touch another one. -/
theorem field?_writeContent (hne : key ≠ "content") :
    (Json.object (m.writeContent fields)).field? key = (Json.object fields).field? key := by
  unfold writeContent
  split
  · exact Json.field?_insertField_of_ne hne
  · split
    · exact Json.field?_insertField_of_ne hne
    · rfl

theorem field?_writeToolCalls (hne : key ≠ "tool_calls") :
    (Json.object (m.writeToolCalls fields)).field? key = (Json.object fields).field? key := by
  unfold writeToolCalls
  split
  · exact Json.field?_insertField_of_ne hne
  · rfl

theorem field?_writeToolCallId (hne : key ≠ "tool_call_id") :
    (Json.object (m.writeToolCallId fields)).field? key = (Json.object fields).field? key := by
  unfold writeToolCallId
  split
  · exact Json.field?_insertField_of_ne hne
  · rfl

theorem role_toJson (m : Message) : m.toJson.field? "role" = some (.string m.role) := by
  unfold toJson
  rw [field?_writeToolCallId (by decide), field?_writeToolCalls (by decide),
    field?_writeContent (by decide), Json.field?_insertField_self]

theorem content_toJson (m : Message) : m.toJson.field? "content" =
    if m.content ≠ "" then some (.string m.content)
    else if m.role ≠ "assistant" ∨ m.toolCalls = [] then some .null else none := by
  unfold toJson
  rw [field?_writeToolCallId (by decide), field?_writeToolCalls (by decide)]
  unfold writeContent
  split
  · exact Json.field?_insertField_self
  · split
    · exact Json.field?_insertField_self
    · exact Json.field?_insertField_of_ne (by decide)

theorem toolCalls_toJson (m : Message) : m.toJson.field? "tool_calls" =
    if m.toolCalls ≠ [] then some (.array (m.toolCalls.map ToolCall.toJson)) else none := by
  unfold toJson
  rw [field?_writeToolCallId (by decide)]
  unfold writeToolCalls
  split
  · exact Json.field?_insertField_self
  · rw [field?_writeContent (by decide), Json.field?_insertField_of_ne (by decide),
      Json.field?_nil]

theorem toolCallId_toJson (m : Message) : m.toJson.field? "tool_call_id" =
    if m.toolCallId ≠ "" then some (.string m.toolCallId) else none := by
  unfold toJson writeToolCallId
  split
  · exact Json.field?_insertField_self
  · rw [field?_writeToolCalls (by decide), field?_writeContent (by decide),
      Json.field?_insertField_of_ne (by decide), Json.field?_nil]

/-- A content that is empty is null or left out. -/
theorem readContent_toJson (m : Message) : readContent m.toJson = some m.content := by
  unfold readContent
  rw [content_toJson]
  by_cases hempty : m.content = ""
  · by_cases hnull : m.role ≠ "assistant" ∨ m.toolCalls = [] <;>
      simp [hempty, hnull, Json.isNull]
  · simp [hempty, Json.isNull, Json.getString]

theorem readToolCalls_toJson (m : Message) : readToolCalls m.toJson = some m.toolCalls := by
  unfold readToolCalls
  rw [toolCalls_toJson]
  by_cases hnone : m.toolCalls = []
  · simp [hnone]
  · rw [if_pos hnone]
    exact ToolCall.mapM_fromJson m.toolCalls

theorem readToolCallId_toJson (m : Message) : readToolCallId m.toJson = some m.toolCallId := by
  unfold readToolCallId
  rw [toolCallId_toJson]
  by_cases hnone : m.toolCallId = ""
  · simp [hnone]
  · simp [hnone, Json.getString]

/-! ### The Round Trip -/

theorem fromJson_toJson (m : Message) : fromJson m.toJson = some m := by
  have hrole : m.toJson.value Json.getString "role" "" = some m.role :=
    Json.value_getString m.role_toJson
  simp [fromJson, hrole, readContent_toJson, readToolCalls_toJson, readToolCallId_toJson]

theorem mapM_fromJson (ms : List Message) : (ms.map toJson).mapM fromJson = some ms := by
  induction ms with
  | nil => rfl
  | cons m ms ih => simp [fromJson_toJson, ih]

/-- **Messages survive the round trip**, one by one and as the history of a
    conversation, and so does every JSON value the encoder makes. -/
theorem json_roundtrip :
    (∀ m : Message, fromJson m.toJson = some m) ∧
    (∀ j : Json, (∃ m : Message, m.toJson = j) → (fromJson j).map toJson = some j) ∧
    ∀ c : Conversation, c.toJson.items.mapM fromJson = some c.messages := by
  refine ⟨fromJson_toJson, ?_, fun c => mapM_fromJson c.messages⟩
  rintro j ⟨m, rfl⟩
  rw [fromJson_toJson, Option.map_some]

/-- An assistant message without text asks for a tool. -/
theorem asksForCalculator_roundtrip :
    (fromJson (Message.toJson ⟨"assistant", "", [⟨"1", "calculator", "2+2"⟩], ""⟩)).map toJson =
      some (Message.toJson ⟨"assistant", "", [⟨"1", "calculator", "2+2"⟩], ""⟩) :=
  json_roundtrip.2.1 _ ⟨⟨"assistant", "", [⟨"1", "calculator", "2+2"⟩], ""⟩, rfl⟩

end Message

end Forge
