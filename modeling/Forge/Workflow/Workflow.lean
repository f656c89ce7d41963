import Forge.Session.Session
import Forge.Tools.ToolExecutor
import Forge.Utils.Json
import Mathlib.Data.List.Infix

/-! # Workflows

  What the three workflows share: the result of `run`
  (`workflow/workflow.h`), the surroundings they run in, the parsing of a
  list of entries out of an LLM response, and the two ways in which the
  plan and the map-reduce workflow leave `run`.

  The LLM, the tools and the clock answer through the labels:

  - the LLM client may throw out of `complete`, or its future may hold an
    exception that `get` throws again (`raise`), or it gives a response;
  - the tools of a batch each have an outcome;
  - the guards and the constructor of a session read the clock.
-/

namespace Forge

/-- Result of running a workflow. The numbers are an `int` each. -/
structure WorkflowResult where
  success : Bool := false
  answer : String := ""
  error : String := ""
  stepsTaken : ℤ := 0
  totalPromptTokens : ℤ := 0
  totalCompletionTokens : ℤ := 0
  deriving DecidableEq

/-- Add the tokens of a response or of a sub-result. A sum that is no `int`
    is undefined in the source; here it wraps. -/
def WorkflowResult.addTokens (res : WorkflowResult) (prompt completion : ℤ) : WorkflowResult :=
  { res with
    totalPromptTokens := Json.toInt32 (res.totalPromptTokens + prompt)
    totalCompletionTokens := Json.toInt32 (res.totalCompletionTokens + completion) }

/-- The order in which tokens are added does not matter. -/
theorem WorkflowResult.addTokens_comm (res : WorkflowResult) (p c p' c' : ℤ) :
    (res.addTokens p c).addTokens p' c' = (res.addTokens p' c').addTokens p c := by
  simp only [addTokens, Json.toInt32_toInt32_add, WorkflowResult.mk.injEq, true_and]
  exact ⟨by rw [Int.add_right_comm], by rw [Int.add_right_comm]⟩

/-- Added up one by one, the numbers do not leave the range of an `int`. -/
def SumsFit (ns : List ℤ) : Prop := ∀ ms ∈ ns.inits, Json.IsInt32 ms.sum

theorem SumsFit.sum {ns : List ℤ} (h : SumsFit ns) : Json.IsInt32 ns.sum :=
  h ns ((List.mem_inits _ _).mpr List.prefix_rfl)

theorem SumsFit.init {ns ms : List ℤ} (h : SumsFit (ns ++ ms)) : SumsFit ns := by
  intro ks hks
  have hks := (List.mem_inits _ _).mp hks
  exact h ks ((List.mem_inits _ _).mpr (hks.trans (List.prefix_append ns ms)))

/-- `total` is the sum of the numbers, if an `int` can hold it all along. -/
def AddsUp (total : ℤ) (ns : List ℤ) : Prop := SumsFit ns → total = ns.sum

theorem addsUp_nil : AddsUp 0 [] := fun _ => rfl

theorem AddsUp.snoc {total n : ℤ} {ns : List ℤ} (h : AddsUp total ns) :
    AddsUp (Json.toInt32 (total + n)) (ns ++ [n]) := by
  intro hfits
  have hsum : (ns ++ [n]).sum = total + n := by simp [h hfits.init]
  rw [hsum, Json.toInt32_eq_iff, ← hsum]
  exact hfits.sum

namespace Workflow

/-- What the surroundings contribute to a step. -/
inductive Label where
  | tau
  /-- The clock reads `t`. -/
  | now (t : ℕ)
  /-- `complete` or `get` throws. -/
  | raise
  | reply (r : LLMResponse)
  /-- The tools of a batch end like this, in the order of the calls. -/
  | batch (outcomes : List ToolOutcome)
  deriving DecidableEq

/-! ### Entries of a Plan

  `generate_plan` and `decompose` read a JSON array of entries the same
  way. An exception inside the loop leaves the entries read so far in the
  vector, and the handler appends the whole response as one more. -/

/-- One entry; `size` entries have been read before. -/
def readEntry (size : ℕ) (j : Json) : Option (ℤ × String) :=
  match j.value Json.getInt "id" (Json.toInt32 (size + 1)) with
  | none => none
  | some id =>
      match j.value Json.getString "description" "" with
      | none => none
      | some description => some (id, description)

/-- The loop over the array, with the entries read so far. -/
def readEntries (content : String) : List Json → List (ℤ × String) → List (ℤ × String)
  | [], read => read
  | j :: js, read =>
      match readEntry read.length j with
      | some e => readEntries content js (read ++ [e])
      | none => read ++ [(1, content)]

/-- The entries of a response, in the array under `key`. -/
def parseEntries (parse : String → Option Json) (key content : String) : List (ℤ × String) :=
  match parse content with
  | none => [(1, content)]
  | some j =>
      match j.field? key with
      | some (.array xs) => readEntries content xs []
      | _ => []

/-! ### Leaving `run` -/

/-- The statements on the way out of `PlanExecuteWorkflow::run` and
    `MapReduceWorkflow::run`. -/
inductive Exit where
  /-- `session.set_error(text)`, before the store of the final state. -/
  | setError (text : String) (final : SessionState)
  | storeError (final : SessionState)
  /-- `result.error = session.get_error()`. -/
  | fillError
  | setFinalAnswer (answer : String)
  /-- `state.store(COMPLETED)`. -/
  | storeCompleted (answer : String)
  | fillAnswer (answer : String)
  deriving DecidableEq

/-- The next statement on the way out; `none` after the last. -/
def Exit.next : Exit → Option Exit
  | .setError _ final => some (.storeError final)
  | .storeError _ => some .fillError
  | .fillError => none
  | .setFinalAnswer answer => some (.storeCompleted answer)
  | .storeCompleted answer => some (.fillAnswer answer)
  | .fillAnswer _ => none

/-- What the statement does to the session. -/
def Exit.session (e : Exit) (s : Session) : Session :=
  match e with
  | .setError text _ => { s with error := text }
  | .storeError final => { s with state := final }
  | .fillError => s
  | .setFinalAnswer answer => { s with finalAnswer := answer }
  | .storeCompleted _ => { s with state := .completed }
  | .fillAnswer _ => s

/-- What the statement does to the result. -/
def Exit.result (e : Exit) (s : Session) (res : WorkflowResult) : WorkflowResult :=
  match e with
  | .fillError => { res with error := s.error }
  | .fillAnswer answer =>
      { res with success := true, answer := answer, stepsTaken := Json.toInt32 s.stepCount }
  | _ => res

/-- The session is in a terminal state after the store on the way out,
    and in none before it. -/
def Exit.Allows : Exit → SessionState → Prop
  | .setError _ final, st | .storeError final, st => st.terminal = false ∧ final.terminal
  | .setFinalAnswer _, st | .storeCompleted _, st => st.terminal = false
  | .fillError, st | .fillAnswer _, st => st.terminal

/-- Every statement on the way out leaves the session ready for the next. -/
theorem Exit.Allows.next {e e' : Exit} {s : Session} (hok : e.Allows s.state)
    (hnext : e.next = some e') : e'.Allows (e.session s).state := by
  cases e <;> cases hnext
  case setError => exact hok
  case storeError => exact hok.2
  case setFinalAnswer => exact hok
  case storeCompleted => rfl

/-- After the last statement the session is in a terminal state. -/
theorem Exit.Allows.last {e : Exit} {s : Session} (hok : e.Allows s.state)
    (hlast : e.next = none) : (e.session s).state.terminal := by
  cases e <;> first | exact hok | cases hlast

end Workflow

end Forge
