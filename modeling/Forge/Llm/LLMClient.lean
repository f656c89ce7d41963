import Forge.Llm.MessageJson

/-! # LLM Client

  `LLMClient::complete` (`llm/llm_client.h`): the request body, and how the
  HTTP response becomes an `LLMResponse`. The JSON library parses and
  prints, and the HTTP client posts; both are parameters. An exception
  inside the `try` leaves what was read before it in the response.

  - `complete_ok_iff`: which HTTP responses are a success for the callers,
    who look at `error`;
  - `complete_reply`: a server that reads the request and writes the
    response of this format is asked exactly the conversation, and its
    reply is what `complete` returns.
-/

namespace Forge

/-- `core/async_http_client.h` -/
structure HttpResponse where
  status : ℤ
  body : String
  /-- Non-empty on transport failure. -/
  error : String := ""

structure LLMClientConfig where
  apiBase : String := "https://api.openai.com"
  model : String := "gpt-4o"
  apiKey : String := ""
  temperature : ℚ := 0
  maxTokens : ℤ := 4096

/-- `empty()` -/
def Json.isEmpty : Json → Bool
  | .null => true
  | .array xs => xs.isEmpty
  | .object fields => fields.isEmpty
  | _ => false

def Json.isArray : Json → Bool
  | .array _ => true
  | _ => false

namespace LLMClient

/-! ### The Request -/

/-- `tools` are sent when there are any. -/
def writeTools (tools : Json) (body : List (String × Json)) : List (String × Json) :=
  if tools.isEmpty = false ∧ tools.isArray then
    Json.insertField "tool_choice" (.string "auto") (Json.insertField "tools" tools body)
  else body

def requestBody (cfg : LLMClientConfig) (messages tools : Json) : Json :=
  .object (writeTools tools
    (Json.insertField "max_tokens" (.int cfg.maxTokens)
      (Json.insertField "temperature" (.float cfg.temperature)
        (Json.insertField "messages" messages
          (Json.insertField "model" (.string cfg.model) [])))))

def url (cfg : LLMClientConfig) : String := cfg.apiBase ++ "/v1/chat/completions"

def headers (cfg : LLMClientConfig) : List (String × String) :=
  [("Content-Type", "application/json"), ("Authorization", "Bearer " ++ cfg.apiKey)]

/-! ### The Response -/

/-- `LLMResponse response;` -/
def emptyResponse : LLMResponse := { message := { role := "" } }

/-- `j["error"]`; an exception leaves the response as it is. -/
def readError (e : Json) (r : LLMResponse) : Except LLMResponse LLMResponse :=
  match e.value Json.getString "message" "Unknown API error" with
  | some text => .ok { r with error := text }
  | none => .error r

/-- `choices[0]`: anything but an array throws. -/
def readChoice (choices : Json) (r : LLMResponse) : Except LLMResponse LLMResponse :=
  match choices with
  | .array (choice :: _) =>
      match choice.field? "message" with
      | none => .ok r
      | some m =>
          match Message.fromJson m with
          | some message => .ok { r with message := message }
          | none => .error r
  | _ => .error r

def readChoices (j : Json) (r : LLMResponse) : Except LLMResponse LLMResponse :=
  match j.field? "choices" with
  | none => .ok r
  | some choices => if choices.isEmpty then .ok r else readChoice choices r

def readUsage (j : Json) (r : LLMResponse) : Except LLMResponse LLMResponse :=
  match j.field? "usage" with
  | none => .ok r
  | some usage =>
      match usage.value Json.getInt "prompt_tokens" 0 with
      | none => .error r
      | some prompt =>
          match usage.value Json.getInt "completion_tokens" 0 with
          | none => .error { r with promptTokens := prompt }
          | some completion =>
              .ok { r with promptTokens := prompt, completionTokens := completion }

def readModel (model : String) (j : Json) (r : LLMResponse) : Except LLMResponse LLMResponse :=
  match j.value Json.getString "model" model with
  | none => .error r
  | some m => .ok { r with model := m }

/-- The `try` block, after the text is parsed. -/
def readResponse (model : String) (j : Json) : Except LLMResponse LLMResponse :=
  match j.field? "error" with
  | some e => readError e emptyResponse
  | none => do
      let r ← readChoices j emptyResponse
      let r ← readUsage j r
      readModel model j r

/-- The JSON library: its parser, with the text of its exception, its
    printer, and the text of the exception a value of the wrong type is
    answered with. -/
structure JsonLibrary where
  parse : String → Except String Json
  dump : Json → String
  what : Json → String

variable (lib : JsonLibrary)

def parseError (e : String) : String := "Failed to parse API response: " ++ e

/-- The task that transforms the response. -/
def transform (model : String) (http : HttpResponse) : LLMResponse :=
  if http.error ≠ "" then { emptyResponse with error := "HTTP error: " ++ http.error }
  else if http.status ≠ 200 then
    { emptyResponse with
      error := "API error (HTTP " ++ toString http.status ++ "): " ++ http.body }
  else
    match lib.parse http.body with
    | .error e => { emptyResponse with error := parseError e }
    | .ok j =>
        match readResponse model j with
        | .ok r => r
        | .error r => { r with error := parseError (lib.what j) }

/-- `complete`: what its future holds. An exception of `post` is rethrown
    by `fut.get()`. -/
def complete (cfg : LLMClientConfig)
    (post : String → String → List (String × String) → Except String HttpResponse)
    (messages tools : Json) : Except String LLMResponse :=
  (post (url cfg) (lib.dump (requestBody cfg messages tools)) (headers cfg)).map
    (transform lib cfg.model)

/-! ### Success -/

/-- The first choice has no message, or one that can be read. -/
def ChoicesOk (j : Json) : Prop :=
  ∀ choices ∈ j.field? "choices", choices.isEmpty = false →
    ∃ choice rest, choices = .array (choice :: rest) ∧
      ∀ m ∈ choice.field? "message", (Message.fromJson m).isSome

/-- The counts are missing or numbers. -/
def UsageOk (j : Json) : Prop :=
  ∀ usage ∈ j.field? "usage", (usage.value Json.getInt "prompt_tokens" 0).isSome ∧
    (usage.value Json.getInt "completion_tokens" 0).isSome

/-- What a document has to be for `error` to stay empty: an error whose
    message is empty is not told from a success. -/
def Accepted (j : Json) : Prop :=
  match j.field? "error" with
  | some e => e.value Json.getString "message" "Unknown API error" = some ""
  | none => ChoicesOk j ∧ UsageOk j ∧ (j.value Json.getString "model" "").isSome

variable {lib : JsonLibrary} {j : Json} {r r' : LLMResponse} {model : String}

theorem readChoices_error (h : readChoices j r = .ok r') : r'.error = r.error := by
  unfold readChoices readChoice at h
  grind

theorem readUsage_error (h : readUsage j r = .ok r') : r'.error = r.error := by
  unfold readUsage at h
  grind

theorem readModel_error (h : readModel model j r = .ok r') : r'.error = r.error := by
  unfold readModel at h
  grind

theorem readChoices_ok_iff (r : LLMResponse) :
    (∃ r', readChoices j r = .ok r') ↔ ChoicesOk j := by
  unfold readChoices ChoicesOk
  cases hchoices : j.field? "choices" with
  | none => simp
  | some choices =>
    by_cases hempty : choices.isEmpty
    · simp [hempty]
    · cases choices with
      | array xs =>
        cases xs with
        | nil => simp [Json.isEmpty] at hempty
        | cons choice rest =>
          cases hm : choice.field? "message" with
          | none => simp [readChoice, Json.isEmpty, hm]
          | some m =>
            cases hread : Message.fromJson m <;> simp [readChoice, Json.isEmpty, hm, hread]
      | _ => simp [readChoice, hempty]

theorem readUsage_ok_iff (r : LLMResponse) : (∃ r', readUsage j r = .ok r') ↔ UsageOk j := by
  unfold readUsage UsageOk
  cases hu : j.field? "usage" with
  | none => simp
  | some usage =>
    cases hp : usage.value Json.getInt "prompt_tokens" 0 <;>
      cases hc : usage.value Json.getInt "completion_tokens" 0 <;> simp [hp, hc]

/-- Whether `value` throws does not depend on the default. -/
theorem value_isSome {α : Type} (get : Json → Option α) (j : Json) (key : String) (a b : α) :
    (j.value get key a).isSome = (j.value get key b).isSome := by
  unfold Json.value
  grind

theorem readModel_ok_iff (model : String) (r : LLMResponse) :
    (∃ r', readModel model j r = .ok r') ↔ (j.value Json.getString "model" "").isSome := by
  unfold readModel
  rw [value_isSome _ _ _ "" model]
  cases hm : j.value Json.getString "model" model <;> simp

/-- The document is read to its end, and `error` stays empty. -/
theorem readResponse_ok_iff (model : String) :
    (∃ r, readResponse model j = .ok r ∧ r.error = "") ↔ Accepted j := by
  unfold readResponse Accepted
  cases herror : j.field? "error" with
  | some e =>
    cases hmessage : e.value Json.getString "message" "Unknown API error" with
    | none => simp [readError, hmessage]
    | some text => simp [readError, hmessage, emptyResponse]
  | none =>
    simp only [bind, Except.bind]
    constructor
    · rintro ⟨r, hr, -⟩
      cases hchoices : readChoices j emptyResponse with
      | error _ => simp [hchoices] at hr
      | ok r₁ =>
        cases husage : readUsage j r₁ with
        | error _ => simp [hchoices, husage] at hr
        | ok r₂ =>
          simp only [hchoices, husage] at hr
          exact ⟨(readChoices_ok_iff _).mp ⟨_, hchoices⟩, (readUsage_ok_iff _).mp ⟨_, husage⟩,
            (readModel_ok_iff model _).mp ⟨_, hr⟩⟩
    · rintro ⟨hchoices, husage, hmodel⟩
      obtain ⟨r₁, h₁⟩ := (readChoices_ok_iff emptyResponse).mpr hchoices
      obtain ⟨r₂, h₂⟩ := (readUsage_ok_iff r₁).mpr husage
      obtain ⟨r₃, h₃⟩ := (readModel_ok_iff model r₂).mpr hmodel
      refine ⟨r₃, by simp only [h₁, h₂, h₃], ?_⟩
      rw [readModel_error h₃, readUsage_error h₂, readChoices_error h₁]
      rfl

/-- The text of a failure is its prefix and more. -/
theorem prefixed_ne {a : String} (b : String) (ha : a ≠ "") : a ++ b ≠ "" := by
  intro h
  exact ha (String.append_eq_empty_iff.mp h).1

theorem transform_ok_iff {http : HttpResponse} :
    (transform lib model http).error = "" ↔
      http.error = "" ∧ http.status = 200 ∧ ∃ j, lib.parse http.body = .ok j ∧ Accepted j := by
  unfold transform
  by_cases herror : http.error = ""
  swap
  · have hne := prefixed_ne http.error (a := "HTTP error: ") (by decide)
    simp [herror, hne]
  by_cases hstatus : http.status = 200
  swap
  · have hne : "API error (HTTP " ++ toString http.status ++ "): " ++ http.body ≠ "" :=
      prefixed_ne _ (prefixed_ne _ (prefixed_ne _ (by decide)))
    simp only [herror, hstatus, ne_eq, not_true_eq_false, not_false_eq_true, if_true, if_false,
      hne, false_and, and_false]
  have hparse : ∀ e, parseError e ≠ "" := fun e => prefixed_ne e (by decide)
  cases hbody : lib.parse http.body with
  | error e => simp [herror, hstatus, hparse e]
  | ok j =>
    cases hr : readResponse model j with
    | ok r => simp [herror, hstatus, hr, ← readResponse_ok_iff model]
    | error r => simp [herror, hstatus, hr, hparse, ← readResponse_ok_iff model]

/-- **Success.** What the callers take for a reply is a response of status
    200 whose document is accepted. -/
theorem complete_ok_iff (lib : JsonLibrary) (cfg : LLMClientConfig)
    (post : String → String → List (String × String) → Except String HttpResponse)
    (messages tools : Json) :
    (∃ r, complete lib cfg post messages tools = .ok r ∧ r.error = "") ↔
      ∃ http, post (url cfg) (lib.dump (requestBody cfg messages tools)) (headers cfg) = .ok http ∧
        http.error = "" ∧ http.status = 200 ∧ ∃ j, lib.parse http.body = .ok j ∧ Accepted j := by
  unfold complete
  cases hpost : post (url cfg) (lib.dump (requestBody cfg messages tools)) (headers cfg) with
  | error e => simp [Except.map]
  | ok http => simp [Except.map, transform_ok_iff]

/-! ### The Other Side -/

/-- A reply in the format of the API. -/
def responseBody (r : LLMResponse) : Json :=
  .ofPairs [("model", .string r.model),
    ("choices", .array [.ofPairs [("message", r.message.toJson)]]),
    ("usage", .ofPairs [("prompt_tokens", .int r.promptTokens),
      ("completion_tokens", .int r.completionTokens)])]

/-- The conversation a request carries. -/
def conversation (j : Json) : Option (List Message) :=
  (j.field? "messages").bind (·.items.mapM Message.fromJson)

/-- A server that answers conversations. -/
def serve (lib : JsonLibrary) (answer : List Message → LLMResponse) (text : String) :
    HttpResponse :=
  match lib.parse text with
  | .error e => ⟨400, e, ""⟩
  | .ok j =>
      match conversation j with
      | none => ⟨400, "messages", ""⟩
      | some messages => ⟨200, lib.dump (responseBody (answer messages)), ""⟩

theorem field?_writeTools {key : String} {tools : Json} {fields : List (String × Json)}
    (htools : key ≠ "tools") (hchoice : key ≠ "tool_choice") :
    (Json.object (writeTools tools fields)).field? key = (Json.object fields).field? key := by
  unfold writeTools
  split
  · rw [Json.field?_insertField_of_ne hchoice, Json.field?_insertField_of_ne htools]
  · rfl

theorem messages_requestBody (cfg : LLMClientConfig) (messages tools : Json) :
    (requestBody cfg messages tools).field? "messages" = some messages := by
  unfold requestBody
  rw [field?_writeTools (by decide) (by decide), Json.field?_insertField_of_ne (by decide),
    Json.field?_insertField_of_ne (by decide), Json.field?_insertField_self]

theorem conversation_requestBody (cfg : LLMClientConfig) (c : Conversation) (tools : Json) :
    conversation (requestBody cfg c.toJson tools) = some c.messages := by
  rw [conversation, messages_requestBody, Option.bind_some]
  exact Message.mapM_fromJson c.messages

theorem error_responseBody (r : LLMResponse) : (responseBody r).field? "error" = none := by
  simp only [responseBody, Json.ofPairs, List.foldl_cons, List.foldl_nil]
  rw [Json.field?_insertField_of_ne (by decide), Json.field?_insertField_of_ne (by decide),
    Json.field?_insertField_of_ne (by decide), Json.field?_nil]

theorem choices_responseBody (r : LLMResponse) : (responseBody r).field? "choices" =
    some (.array [.object (Json.insertField "message" r.message.toJson [])]) := by
  simp only [responseBody, Json.ofPairs, List.foldl_cons, List.foldl_nil]
  rw [Json.field?_insertField_of_ne (by decide), Json.field?_insertField_self]

theorem usage_responseBody (r : LLMResponse) : (responseBody r).field? "usage" =
    some (.object (Json.insertField "completion_tokens" (.int r.completionTokens)
      (Json.insertField "prompt_tokens" (.int r.promptTokens) []))) := by
  simp only [responseBody, Json.ofPairs, List.foldl_cons, List.foldl_nil]
  rw [Json.field?_insertField_self]

theorem model_responseBody (r : LLMResponse) :
    (responseBody r).field? "model" = some (.string r.model) := by
  simp only [responseBody, Json.ofPairs, List.foldl_cons, List.foldl_nil]
  rw [Json.field?_insertField_of_ne (by decide), Json.field?_insertField_of_ne (by decide),
    Json.field?_insertField_self]

/-- Reading a number that is there. -/
theorem value_getInt {fields : List (String × Json)} {key : String} {i default : ℤ}
    (h : (Json.object fields).field? key = some (.int i)) (hi : Json.toInt32 i = i) :
    (Json.object fields).value Json.getInt key default = some i := by
  simp [Json.value, h, Json.getInt, hi]

/-- The reply is read as it was written, where `int` holds its counts. -/
theorem readResponse_responseBody (model : String)
    (hprompt : Json.toInt32 r.promptTokens = r.promptTokens)
    (hcompletion : Json.toInt32 r.completionTokens = r.completionTokens) (herror : r.error = "") :
    readResponse model (responseBody r) = .ok r := by
  have hchoices : readChoices (responseBody r) emptyResponse =
      .ok { emptyResponse with message := r.message } := by
    unfold readChoices
    rw [choices_responseBody]
    simp [Json.isEmpty, readChoice, Message.fromJson_toJson]
  have husage : readUsage (responseBody r) { emptyResponse with message := r.message } =
      .ok { emptyResponse with
        message := r.message
        promptTokens := r.promptTokens
        completionTokens := r.completionTokens } := by
    unfold readUsage
    rw [usage_responseBody]
    simp only
    rw [value_getInt (by rw [Json.field?_insertField_of_ne (by decide),
      Json.field?_insertField_self]) hprompt]
    rw [value_getInt Json.field?_insertField_self hcompletion]
  have hmodel : (responseBody r).value Json.getString "model" model = some r.model :=
    Json.value_getString (model_responseBody r)
  unfold readResponse
  simp only [error_responseBody, hchoices, bind, Except.bind, husage, readModel, hmodel]
  simp [emptyResponse, ← herror]

/-- **The two sides agree.** A server that reads requests and writes
    replies of this format is asked the conversation, whatever the tools,
    and its reply is what `complete` returns; the JSON library is to read
    what it has printed. -/
theorem complete_reply (lib : JsonLibrary) (cfg : LLMClientConfig)
    (answer : List Message → LLMResponse) (c : Conversation) (tools : Json)
    (hrequest : lib.parse (lib.dump (requestBody cfg c.toJson tools)) =
      .ok (requestBody cfg c.toJson tools))
    (hresponse : lib.parse (lib.dump (responseBody (answer c.messages))) =
      .ok (responseBody (answer c.messages)))
    (hprompt : Json.toInt32 (answer c.messages).promptTokens = (answer c.messages).promptTokens)
    (hcompletion : Json.toInt32 (answer c.messages).completionTokens =
      (answer c.messages).completionTokens)
    (herror : (answer c.messages).error = "") :
    complete lib cfg (fun _ body _ => .ok (serve lib answer body)) c.toJson tools =
      .ok (answer c.messages) := by
  have hserve : serve lib answer (lib.dump (requestBody cfg c.toJson tools)) =
      ⟨200, lib.dump (responseBody (answer c.messages)), ""⟩ := by
    simp [serve, hrequest, conversation_requestBody]
  have hread := readResponse_responseBody cfg.model hprompt hcompletion herror
  simp [complete, Except.map, hserve, transform, hresponse, hread]

/-! A greeting, and the JSON library on its two documents. -/

def greeting : Conversation := ⟨100, [⟨"user", "hi", [], ""⟩]⟩

def hello : LLMResponse := ⟨⟨"assistant", "hello", [], ""⟩, 20, 5, "gpt-4o", ""⟩

def greetingText : String :=
  "\x7b\"max_tokens\":4096,\"messages\":[\x7b\"content\":\"hi\",\"role\":\"user\"\x7d]," ++
    "\"model\":\"gpt-4o\",\"temperature\":0.0\x7d"

def helloText : String :=
  "\x7b\"choices\":[\x7b\"message\":\x7b\"content\":\"hello\",\"role\":\"assistant\"\x7d\x7d]," ++
    "\"model\":\"gpt-4o\",\"usage\":\x7b\"completion_tokens\":5,\"prompt_tokens\":20\x7d\x7d"

def greetingLibrary : JsonLibrary where
  parse text :=
    if text = greetingText then .ok (requestBody {} greeting.toJson .null)
    else if text = helloText then .ok (responseBody hello)
    else .error "parse error"
  dump j := if (j.field? "choices").isSome then helloText else greetingText
  what _ := "type error"

theorem greeting_reply :
    complete greetingLibrary {}
      (fun _ body _ => .ok (serve greetingLibrary (fun _ => hello) body))
      greeting.toJson .null = .ok hello :=
  complete_reply greetingLibrary {} (fun _ => hello) greeting .null rfl rfl (by decide)
    (by decide) rfl

end LLMClient

end Forge
