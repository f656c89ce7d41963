import Forge.Workflow.Workflow

/-! # ReAct Workflow

  `ReActWorkflow::run` (`workflow/react.cpp`) as a machine. Every access
  to the shared fields of the session is one step, so that the steps of
  others (a cancellation, a reader) may come in between. Tracing and
  logging are left out.
-/

namespace Forge

open Workflow (Label)

namespace ReActWorkflow

/-- Where `run` is. -/
inductive PC where
  /-- `while (!session.is_terminal())`. -/
  | head
  | checkCancel
  | checkMaxIterations
  | checkTimeout
  /-- `state.store(WAITING_FOR_LLM)`. -/
  | storeWaiting
  | countStep
  /-- `llm_.complete(messages, tools_json)`. -/
  | complete
  /-- `llm_future.get()`. -/
  | get
  | pushAssistant (msg : Message)
  /-- `state.store(EXECUTING_TOOLS)`. -/
  | storeExecuting (calls : List ToolCall)
  | executeBatch (calls : List ToolCall)
  /-- Append the results that are left as tool messages. -/
  | pushResults (results : List ToolResult)
  /-- `session.set_error(text)`, before the store of the final state. -/
  | setError (text : String) (final : SessionState)
  /-- `session.set_final_answer(text)`. -/
  | setFinalAnswer (text : String)
  /-- The store of the final state, before `break`. -/
  | storeFinal (final : SessionState)
  /-- After the loop: fill the result. -/
  | finish
  | returned
  /-- An exception has left `run`. -/
  | threw
  deriving DecidableEq

structure State where
  pc : PC
  session : Session
  result : WorkflowResult
  deriving DecidableEq

/-- The start of `run`. -/
def start (session : Session) : State := ⟨.head, session, {}⟩

/-- What is done with an assistant message. -/
def afterAssistant (msg : Message) : PC :=
  if msg.hasToolCalls then .storeExecuting msg.toolCalls
  else if msg.hasContent then .setFinalAnswer msg.content
  else .setError "LLM returned empty response (no content, no tool calls)" .failed

/-- The messages the pending call of the LLM is given. -/
def State.request (s : State) : List Message := s.session.history.messages

/-- The step function. -/
def next (reg : ToolRegistry) (s : State) (l : Label) : Option State :=
  match s.pc, l with
  | .head, .tau => some { s with pc := if s.session.isTerminal then .finish else .checkCancel }
  | .checkCancel, .tau =>
      some { s with
        pc := if s.session.cancelRequested then .setError "Cancelled by user" .cancelled
          else .checkMaxIterations }
  | .checkMaxIterations, .tau =>
      some { s with
        pc := if s.session.exceededMaxIterations then
            .setError ("Maximum iterations (" ++ toString s.session.config.maxIterations ++
              ") exceeded") .failed
          else .checkTimeout }
  | .checkTimeout, .now t =>
      some { s with
        pc := if s.session.isTimedOut t then .setError "Session timed out" .failed
          else .storeWaiting }
  | .storeWaiting, .tau =>
      some { s with session := { s.session with state := .waitingForLlm }, pc := .countStep }
  | .countStep, .tau => some { s with session := s.session.countStep, pc := .complete }
  | .complete, .tau => some { s with pc := .get }
  | .complete, .raise => some { s with pc := .threw }
  | .get, .raise => some { s with pc := .threw }
  | .get, .reply r =>
      if r.error ≠ "" then some { s with pc := .setError ("LLM error: " ++ r.error) .failed }
      else
        some { s with
          result := s.result.addTokens r.promptTokens r.completionTokens
          pc := .pushAssistant r.message }
  | .pushAssistant msg, .tau =>
      some { s with
        session := { s.session with history := s.session.history.push msg }
        pc := afterAssistant msg }
  | .storeExecuting calls, .tau =>
      some { s with
        session := { s.session with state := .executingTools }
        pc := .executeBatch calls }
  | .executeBatch calls, .batch outcomes =>
      if outcomes.length = calls.length then
        match executeBatch reg calls outcomes with
        | some results => some { s with pc := .pushResults results }
        | none => some { s with pc := .threw }
      else none
  | .pushResults [], .tau => some { s with pc := .head }
  | .pushResults (tr :: rest), .tau =>
      some { s with
        session := { s.session with history := s.session.history.push tr.toMessage }
        pc := .pushResults rest }
  | .setError text final, .tau =>
      some { s with session := { s.session with error := text }, pc := .storeFinal final }
  | .setFinalAnswer text, .tau =>
      some { s with
        session := { s.session with finalAnswer := text }
        pc := .storeFinal .completed }
  | .storeFinal final, .tau =>
      some { s with session := { s.session with state := final }, pc := .finish }
  | .finish, .tau =>
      some { s with
        result := { s.result with
          success := s.session.state = .completed
          answer := s.session.finalAnswer
          error := s.session.error
          stepsTaken := Json.toInt32 s.session.stepCount }
        pc := .returned }
  | _, _ => none

/-! ### What a Step Can Do -/

/-- What one step of `run` can do, one constructor per way through it. -/
inductive Moves (reg : ToolRegistry) : State → Label → State → Prop where
  | loopEnds {x res} : x.state.terminal = true → Moves reg ⟨.head, x, res⟩ .tau ⟨.finish, x, res⟩
  | loopGoesOn {x res} : x.state.terminal = false →
      Moves reg ⟨.head, x, res⟩ .tau ⟨.checkCancel, x, res⟩
  | cancelled {x res} : x.cancelRequested = true →
      Moves reg ⟨.checkCancel, x, res⟩ .tau ⟨.setError "Cancelled by user" .cancelled, x, res⟩
  | notCancelled {x res} : x.cancelRequested = false →
      Moves reg ⟨.checkCancel, x, res⟩ .tau ⟨.checkMaxIterations, x, res⟩
  | tooMany {x res} : x.config.maxIterations ≤ x.stepCount →
      Moves reg ⟨.checkMaxIterations, x, res⟩ .tau
        ⟨.setError ("Maximum iterations (" ++ toString x.config.maxIterations ++ ") exceeded")
          .failed, x, res⟩
  | notTooMany {x res} : x.stepCount < x.config.maxIterations →
      Moves reg ⟨.checkMaxIterations, x, res⟩ .tau ⟨.checkTimeout, x, res⟩
  | timedOut {x res t} : x.deadline < t →
      Moves reg ⟨.checkTimeout, x, res⟩ (.now t) ⟨.setError "Session timed out" .failed, x, res⟩
  | inTime {x res t} : t ≤ x.deadline →
      Moves reg ⟨.checkTimeout, x, res⟩ (.now t) ⟨.storeWaiting, x, res⟩
  | storeWaiting {x res} :
      Moves reg ⟨.storeWaiting, x, res⟩ .tau ⟨.countStep, { x with state := .waitingForLlm }, res⟩
  | countStep {x res} : Moves reg ⟨.countStep, x, res⟩ .tau ⟨.complete, x.countStep, res⟩
  | complete {x res} : Moves reg ⟨.complete, x, res⟩ .tau ⟨.get, x, res⟩
  | completeRaises {x res} : Moves reg ⟨.complete, x, res⟩ .raise ⟨.threw, x, res⟩
  | getRaises {x res} : Moves reg ⟨.get, x, res⟩ .raise ⟨.threw, x, res⟩
  | replyError {x res r} : r.error ≠ "" →
      Moves reg ⟨.get, x, res⟩ (.reply r) ⟨.setError ("LLM error: " ++ r.error) .failed, x, res⟩
  | reply {x res r} : r.error = "" →
      Moves reg ⟨.get, x, res⟩ (.reply r)
        ⟨.pushAssistant r.message, x, res.addTokens r.promptTokens r.completionTokens⟩
  | pushAssistant {x res msg} :
      Moves reg ⟨.pushAssistant msg, x, res⟩ .tau
        ⟨afterAssistant msg, { x with history := x.history.push msg }, res⟩
  | storeExecuting {x res calls} :
      Moves reg ⟨.storeExecuting calls, x, res⟩ .tau
        ⟨.executeBatch calls, { x with state := .executingTools }, res⟩
  | batch {x res calls outcomes results} : outcomes.length = calls.length →
      executeBatch reg calls outcomes = some results →
      Moves reg ⟨.executeBatch calls, x, res⟩ (.batch outcomes) ⟨.pushResults results, x, res⟩
  | batchRaises {x res calls outcomes} : outcomes.length = calls.length →
      executeBatch reg calls outcomes = none →
      Moves reg ⟨.executeBatch calls, x, res⟩ (.batch outcomes) ⟨.threw, x, res⟩
  | pushedAll {x res} : Moves reg ⟨.pushResults [], x, res⟩ .tau ⟨.head, x, res⟩
  | pushResult {x res tr rest} :
      Moves reg ⟨.pushResults (tr :: rest), x, res⟩ .tau
        ⟨.pushResults rest, { x with history := x.history.push tr.toMessage }, res⟩
  | setError {x res text final} :
      Moves reg ⟨.setError text final, x, res⟩ .tau
        ⟨.storeFinal final, { x with error := text }, res⟩
  | setFinalAnswer {x res text} :
      Moves reg ⟨.setFinalAnswer text, x, res⟩ .tau
        ⟨.storeFinal .completed, { x with finalAnswer := text }, res⟩
  | storeFinal {x res final} :
      Moves reg ⟨.storeFinal final, x, res⟩ .tau ⟨.finish, { x with state := final }, res⟩
  | finish {x res} :
      Moves reg ⟨.finish, x, res⟩ .tau
        ⟨.returned, x, { res with
          success := x.state = .completed
          answer := x.finalAnswer
          error := x.error
          stepsTaken := Json.toInt32 x.stepCount }⟩

/-- The inversion of the step function. -/
theorem moves_of_next {reg : ToolRegistry} {s s' : State} {l : Label}
    (hs : next reg s l = some s') : Moves reg s l s' := by
  obtain ⟨pc, x, res⟩ := s
  cases pc
  case pushResults results =>
    cases results <;> cases l <;> simp only [next, Option.some.injEq, reduceCtorEq] at hs <;>
      subst hs
    · exact .pushedAll
    · exact .pushResult
  all_goals
    cases l <;> simp only [next, Option.some.injEq, reduceCtorEq] at hs
  case get.reply r =>
    split at hs <;> cases hs
    · next herr => exact .replyError herr
    · next herr => exact .reply (not_not.mp herr)
  case executeBatch.batch calls outcomes =>
    split at hs
    · next hlen =>
      split at hs
      · next results hresults =>
        cases hs
        exact .batch hlen hresults
      · next hnone =>
        cases hs
        exact .batchRaises hlen hnone
    · cases hs
  all_goals subst hs
  -- the guards
  case head.tau =>
    split
    · next hterm => exact .loopEnds hterm
    · next hterm => exact .loopGoesOn (by simpa [Session.isTerminal] using hterm)
  case checkCancel.tau =>
    split
    · next hcancel => exact .cancelled hcancel
    · next hcancel => exact .notCancelled (by simpa using hcancel)
  case checkMaxIterations.tau =>
    split
    · next hmax => exact .tooMany (by simpa [Session.exceededMaxIterations] using hmax)
    · next hmax => exact .notTooMany (by simpa [Session.exceededMaxIterations] using hmax)
  case checkTimeout.now t =>
    split
    · next hlate => exact .timedOut (by simpa [Session.isTimedOut] using hlate)
    · next hlate => exact .inTime (by simpa [Session.isTimedOut] using hlate)
  all_goals constructor

/-- Every way through is a step. -/
theorem next_of_moves {reg : ToolRegistry} {s s' : State} {l : Label} (hs : Moves reg s l s') :
    next reg s l = some s' := by
  cases hs
  case loopEnds hterm => simp [next, Session.isTerminal, hterm]
  case loopGoesOn hterm => simp [next, Session.isTerminal, hterm]
  case cancelled hcancel => simp [next, hcancel]
  case notCancelled hcancel => simp [next, hcancel]
  case tooMany hle => simp [next, Session.exceededMaxIterations, hle]
  case notTooMany hlt => simp [next, Session.exceededMaxIterations, Nat.not_le.mpr hlt]
  case timedOut hlt => simp [next, Session.isTimedOut, hlt]
  case inTime hle => simp [next, Session.isTimedOut, Nat.not_lt.mpr hle]
  case replyError herr => simp [next, herr]
  case reply herr => simp [next, herr]
  case batch hlen hresults => simp [next, hlen, hresults]
  case batchRaises hlen hnone => simp [next, hlen, hnone]
  all_goals rfl

/-! ### How a Run Ends -/

/-- The step lets an exception out of `run`. -/
def raises (reg : ToolRegistry) (s : State) (l : Label) : Bool :=
  match s.pc, l with
  | .complete, .raise | .get, .raise => true
  | .executeBatch calls, .batch outcomes => (executeBatch reg calls outcomes).isNone
  | _, _ => false

/-- The session is in a terminal state after the loop, and in none before
    it. -/
def PC.Allows : PC → SessionState → Prop
  | .finish, st | .returned, st => st.terminal
  | .setError _ final, st | .storeFinal final, st => st.terminal = false ∧ final.terminal
  | _, st => st.terminal = false

/-- The session is as far as `run` is. -/
def SessionOk (s : State) : Prop := s.pc.Allows s.session.state

variable {reg : ToolRegistry} {s s' : State} {l : Label}

/-- After an assistant message `run` is at one of three statements. -/
theorem afterAssistant_cases (msg : Message) :
    (msg.toolCalls ≠ [] ∧ afterAssistant msg = .storeExecuting msg.toolCalls) ∨
      (msg.toolCalls = [] ∧ msg.content ≠ "" ∧
        afterAssistant msg = .setFinalAnswer msg.content) ∨
      (msg.toolCalls = [] ∧ msg.content = "" ∧ afterAssistant msg =
        .setError "LLM returned empty response (no content, no tool calls)" .failed) := by
  by_cases hcalls : msg.toolCalls = []
  · by_cases hcontent : msg.content = ""
    · exact .inr (.inr ⟨hcalls, hcontent,
        by simp [afterAssistant, Message.hasToolCalls, Message.hasContent, hcalls, hcontent]⟩)
    · exact .inr (.inl ⟨hcalls, hcontent,
        by simp [afterAssistant, Message.hasToolCalls, Message.hasContent, hcalls, hcontent]⟩)
  · exact .inl ⟨hcalls, by simp [afterAssistant, Message.hasToolCalls, hcalls]⟩

theorem afterAssistant_ne_threw (msg : Message) : afterAssistant msg ≠ .threw := by
  obtain ⟨-, hpc⟩ | ⟨-, -, hpc⟩ | ⟨-, -, hpc⟩ := afterAssistant_cases msg <;> simp [hpc]

theorem afterAssistant_allows (msg : Message) {st : SessionState} (hst : st.terminal = false) :
    (afterAssistant msg).Allows st := by
  obtain ⟨-, hpc⟩ | ⟨-, -, hpc⟩ | ⟨-, -, hpc⟩ := afterAssistant_cases msg
  · rw [hpc]
    exact hst
  · rw [hpc]
    exact hst
  · rw [hpc]
    exact ⟨hst, rfl⟩

/-- `run` ends by an exception in the steps that raise one, and in no
    others. -/
theorem threw_iff (hs : Moves reg s l s') : s'.pc = .threw ↔ raises reg s l := by
  cases hs
  case pushAssistant msg => simpa [raises] using afterAssistant_ne_threw msg
  -- a batch throws when collecting its results does
  case batch hlen hresults => simp [raises, hresults]
  case batchRaises hlen hnone => simp [raises, hnone]
  all_goals simp [raises]

/-- Every step leaves the session as far as `run` is. -/
theorem SessionOk.step (hok : SessionOk s) (hs : Moves reg s l s') : SessionOk s' := by
  unfold SessionOk at hok ⊢
  cases hs
  -- the loop is left when the session is in a terminal state already
  case loopEnds hterm => exact hterm
  case cancelled | tooMany | timedOut | replyError => exact ⟨hok, rfl⟩
  case pushAssistant msg => exact afterAssistant_allows msg hok
  case storeWaiting | storeExecuting => rfl
  case setFinalAnswer => exact ⟨hok, rfl⟩
  case storeFinal => exact hok.2
  all_goals exact hok

end ReActWorkflow

end Forge
