import Mathlib.Data.Int.Notation
import Mathlib.Data.Nat.Notation

/-! # Messages

  The message types of `llm/message.h`. A history is a list of messages;
  the JSON a request carries is this list, rendered message by message.
-/

namespace Forge

/-- A single tool call requested by the LLM. -/
structure ToolCall where
  id : String
  name : String
  argumentsJson : String
  deriving DecidableEq

/-- Result of executing a tool call. -/
structure ToolResult where
  toolCallId : String
  output : String
  isError : Bool
  deriving DecidableEq

/-- A conversation message. -/
structure Message where
  role : String
  content : String := ""
  toolCalls : List ToolCall := []
  toolCallId : String := ""
  deriving DecidableEq

def Message.hasToolCalls (m : Message) : Bool := !m.toolCalls.isEmpty

def Message.hasContent (m : Message) : Bool := m.content ≠ ""

/-- The message for one tool result. -/
def ToolResult.toMessage (tr : ToolResult) : Message where
  role := "tool"
  content := tr.output
  toolCallId := tr.toolCallId

/-- Response from an LLM completion call. -/
structure LLMResponse where
  message : Message
  promptTokens : ℤ := 0
  completionTokens : ℤ := 0
  model : String := ""
  /-- Non-empty on failure. -/
  error : String := ""
  deriving DecidableEq

end Forge
