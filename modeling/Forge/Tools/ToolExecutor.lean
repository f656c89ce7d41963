import Forge.Llm.Message

/-! # Tool Executor

  `ToolExecutor::execute_batch` (`tools/tool_executor.h`): all known tools
  are submitted to the pool, then the results are collected in order. What
  the caller sees of one call is its outcome; an exception that is no
  `std::exception` is not caught.
-/

namespace Forge

/-- The registered tools, by name (`tools/tool_registry.h`). -/
structure ToolRegistry where
  names : List String

def ToolRegistry.has (r : ToolRegistry) (name : String) : Bool := name ∈ r.names

/-- How the call of a handler ends, seen from `wait_for`. -/
inductive ToolOutcome where
  | output (s : String)
  /-- The handler threw a `std::exception`. -/
  | stdException (what : String)
  /-- The handler threw something else. -/
  | otherException
  | timeout
  deriving DecidableEq

/-- The result of one call; `none` when an exception leaves `execute_batch`. -/
def collect (r : ToolRegistry) (call : ToolCall) (o : ToolOutcome) : Option ToolResult :=
  if r.has call.name then
    match o with
    | .output s => some ⟨call.id, s, false⟩
    | .stdException what => some ⟨call.id, "Tool error: " ++ what, true⟩
    | .otherException => none
    | .timeout => some ⟨call.id, "Tool timed out", true⟩
  else some ⟨call.id, "Unknown tool: " ++ call.name, true⟩

/-- The results of a batch, given the outcome of every call. -/
def executeBatch (r : ToolRegistry) : List ToolCall → List ToolOutcome → Option (List ToolResult)
  | call :: calls, o :: os =>
      match collect r call o, executeBatch r calls os with
      | some tr, some trs => some (tr :: trs)
      | _, _ => none
  | _, _ => some []

end Forge
