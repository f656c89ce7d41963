import Forge.Workflow.ReAct

/-! # Plan-and-Execute Workflow

  `PlanExecuteWorkflow::run` (`workflow/plan_execute.cpp`) as a machine:
  a plan from the LLM, every step of it through a ReAct run on a session
  of its own, and an answer from the LLM.
-/

namespace Forge

open Workflow (Label Exit parseEntries)

namespace PlanExecuteWorkflow

structure Step where
  id : ℤ
  description : String
  result : String := ""
  deriving DecidableEq

/-- Where `run` is; `i` is the index of a step. -/
inductive PC where
  /-- The first `state.store(WAITING_FOR_LLM)`. -/
  | storeWaiting
  /-- `llm_.complete(messages)` in `generate_plan`. -/
  | planComplete
  | planGet
  | storeExecuting
  /-- `for (auto& step : steps)`, with the check of the flag. -/
  | stepHead (i : ℕ)
  | countStep (i : ℕ)
  /-- The construction of `sub_session`. -/
  | createSub (i : ℕ)
  | runSub (i : ℕ) (sub : ReActWorkflow.State)
  /-- The second `state.store(WAITING_FOR_LLM)`. -/
  | storeSynthesizing
  /-- `llm_.complete(messages)` in `synthesize`. -/
  | synthesizeComplete
  | synthesizeGet
  | exit (e : Exit)
  | returned
  /-- An exception has left `run`. -/
  | threw
  deriving DecidableEq

structure State where
  pc : PC
  session : Session
  result : WorkflowResult
  steps : List Step
  deriving DecidableEq

/-- The start of `run`. -/
def start (session : Session) : State := ⟨.storeWaiting, session, {}, []⟩

def planPrompt : Message where
  role := "system"
  content :=
    "You are a planning assistant. Break down the user's request into " ++
    "a sequence of steps. Respond with ONLY a JSON object in this format:\n" ++
    "\x7b\"steps\": [\x7b\"id\": 1, \"description\": \"step description\"\x7d, ...]\x7d" ++
    "\nDo not include any other text."

def synthesizePrompt : Message where
  role := "system"
  content :=
    "You are a helpful assistant. Synthesize the results of the " ++
    "following steps into a final, coherent answer."

/-- The line of one step in `step_summary`. -/
def Step.summary (s : Step) : String :=
  "Step " ++ toString s.id ++ ": " ++ s.description ++ "\nResult: " ++ s.result ++ "\n\n"

/-- The messages the pending call of the LLM is given. -/
def State.request (s : State) : List Message :=
  match s.pc with
  | .planComplete | .planGet => planPrompt :: s.session.history.firstUser?.toList
  | .synthesizeComplete | .synthesizeGet =>
      let results : Message := {
        role := "user"
        content := "Here are the results of each step:\n\n" ++
          String.join (s.steps.map Step.summary) ++
          "\nPlease synthesize these into a final answer." }
      synthesizePrompt :: s.session.history.firstUser?.toList ++ [results]
  | .runSub _ sub => sub.request
  | _ => []

/-- `generate_plan`, given the response. -/
def generatePlan (parse : String → Option Json) (r : LLMResponse) : List Step :=
  if r.error ≠ "" then []
  else (parseEntries parse "steps" r.message.content).map fun e =>
    { id := e.1, description := e.2 }

/-- `synthesize`, given the response. -/
def synthesize (r : LLMResponse) : String := if r.error ≠ "" then "" else r.message.content

/-- What `step.result` becomes. -/
def stepText (res : WorkflowResult) : String :=
  if res.success then res.answer else "Failed: " ++ res.error

/-- The step function. -/
def next (parse : String → Option Json) (reg : ToolRegistry) (s : State) (l : Label) :
    Option State :=
  match s.pc, l with
  | .storeWaiting, .tau =>
      some { s with session := { s.session with state := .waitingForLlm }, pc := .planComplete }
  | .planComplete, .tau => some { s with pc := .planGet }
  | .planComplete, .raise => some { s with pc := .threw }
  | .planGet, .raise => some { s with pc := .threw }
  | .planGet, .reply r =>
      some { s with
        result := s.result.addTokens r.promptTokens r.completionTokens
        steps := generatePlan parse r
        pc := if generatePlan parse r = [] then .exit (.setError "Failed to generate plan" .failed)
          else .storeExecuting }
  | .storeExecuting, .tau =>
      some { s with session := { s.session with state := .executingTools }, pc := .stepHead 0 }
  | .stepHead i, .tau =>
      some { s with
        pc := if i < s.steps.length then
            if s.session.cancelRequested then .exit (.setError "Cancelled by user" .cancelled)
            else .countStep i
          else .storeSynthesizing }
  | .countStep i, .tau => some { s with session := s.session.countStep, pc := .createSub i }
  | .createSub i, .now t =>
      match s.steps[i]? with
      | some step =>
          some { s with
            pc := .runSub i (ReActWorkflow.start (s.session.newSub step.description t)) }
      | none => none
  | .runSub i sub, l =>
      if sub.pc = .returned then
        match s.steps[i]?, l with
        | some step, .tau =>
            some { s with
              result := s.result.addTokens sub.result.totalPromptTokens
                sub.result.totalCompletionTokens
              steps := s.steps.set i { step with result := stepText sub.result }
              pc := .stepHead (i + 1) }
        | _, _ => none
      else
        match ReActWorkflow.next reg sub l with
        | some sub' =>
            some { s with pc := if sub'.pc = .threw then .threw else .runSub i sub' }
        | none => none
  | .storeSynthesizing, .tau =>
      some { s with
        session := { s.session with state := .waitingForLlm }
        pc := .synthesizeComplete }
  | .synthesizeComplete, .tau => some { s with pc := .synthesizeGet }
  | .synthesizeComplete, .raise => some { s with pc := .threw }
  | .synthesizeGet, .raise => some { s with pc := .threw }
  | .synthesizeGet, .reply r =>
      some { s with
        result := s.result.addTokens r.promptTokens r.completionTokens
        pc := if synthesize r = "" then .exit (.setError "Synthesis failed" .failed)
          else .exit (.setFinalAnswer (synthesize r)) }
  | .exit e, .tau =>
      some { s with
        session := e.session s.session
        result := e.result s.session s.result
        pc := match e.next with
          | some e' => .exit e'
          | none => .returned }
  | _, _ => none

/-! ### What a Step Can Do -/

/-- What one step of `run` can do, one constructor per way through it. -/
inductive Moves (parse : String → Option Json) (reg : ToolRegistry) :
    State → Label → State → Prop where
  | storeWaiting {x res steps} :
      Moves parse reg ⟨.storeWaiting, x, res, steps⟩ .tau
        ⟨.planComplete, { x with state := .waitingForLlm }, res, steps⟩
  | planComplete {x res steps} :
      Moves parse reg ⟨.planComplete, x, res, steps⟩ .tau ⟨.planGet, x, res, steps⟩
  | planCompleteRaises {x res steps} :
      Moves parse reg ⟨.planComplete, x, res, steps⟩ .raise ⟨.threw, x, res, steps⟩
  | planGetRaises {x res steps} :
      Moves parse reg ⟨.planGet, x, res, steps⟩ .raise ⟨.threw, x, res, steps⟩
  | noPlan {x res steps r} : generatePlan parse r = [] →
      Moves parse reg ⟨.planGet, x, res, steps⟩ (.reply r)
        ⟨.exit (.setError "Failed to generate plan" .failed), x,
          res.addTokens r.promptTokens r.completionTokens, []⟩
  | plan {x res steps r} : generatePlan parse r ≠ [] →
      Moves parse reg ⟨.planGet, x, res, steps⟩ (.reply r)
        ⟨.storeExecuting, x, res.addTokens r.promptTokens r.completionTokens, generatePlan parse r⟩
  | storeExecuting {x res steps} :
      Moves parse reg ⟨.storeExecuting, x, res, steps⟩ .tau
        ⟨.stepHead 0, { x with state := .executingTools }, res, steps⟩
  | cancelled {x res steps i} : i < steps.length → x.cancelRequested = true →
      Moves parse reg ⟨.stepHead i, x, res, steps⟩ .tau
        ⟨.exit (.setError "Cancelled by user" .cancelled), x, res, steps⟩
  | notCancelled {x res steps i} : i < steps.length → x.cancelRequested = false →
      Moves parse reg ⟨.stepHead i, x, res, steps⟩ .tau ⟨.countStep i, x, res, steps⟩
  | noMoreSteps {x res steps i} : steps.length ≤ i →
      Moves parse reg ⟨.stepHead i, x, res, steps⟩ .tau ⟨.storeSynthesizing, x, res, steps⟩
  | countStep {x res steps i} :
      Moves parse reg ⟨.countStep i, x, res, steps⟩ .tau ⟨.createSub i, x.countStep, res, steps⟩
  | createSub {x res steps i step t} : steps[i]? = some step →
      Moves parse reg ⟨.createSub i, x, res, steps⟩ (.now t)
        ⟨.runSub i (ReActWorkflow.start (x.newSub step.description t)), x, res, steps⟩
  | sub {x res steps i sub sub' l} : ReActWorkflow.Moves reg sub l sub' → sub'.pc ≠ .threw →
      Moves parse reg ⟨.runSub i sub, x, res, steps⟩ l ⟨.runSub i sub', x, res, steps⟩
  | subRaises {x res steps i sub sub' l} : ReActWorkflow.Moves reg sub l sub' → sub'.pc = .threw →
      Moves parse reg ⟨.runSub i sub, x, res, steps⟩ l ⟨.threw, x, res, steps⟩
  | subReturned {x res steps i sub step} : sub.pc = .returned → steps[i]? = some step →
      Moves parse reg ⟨.runSub i sub, x, res, steps⟩ .tau
        ⟨.stepHead (i + 1), x,
          res.addTokens sub.result.totalPromptTokens sub.result.totalCompletionTokens,
          steps.set i { step with result := stepText sub.result }⟩
  | storeSynthesizing {x res steps} :
      Moves parse reg ⟨.storeSynthesizing, x, res, steps⟩ .tau
        ⟨.synthesizeComplete, { x with state := .waitingForLlm }, res, steps⟩
  | synthesizeComplete {x res steps} :
      Moves parse reg ⟨.synthesizeComplete, x, res, steps⟩ .tau ⟨.synthesizeGet, x, res, steps⟩
  | synthesizeCompleteRaises {x res steps} :
      Moves parse reg ⟨.synthesizeComplete, x, res, steps⟩ .raise ⟨.threw, x, res, steps⟩
  | synthesizeGetRaises {x res steps} :
      Moves parse reg ⟨.synthesizeGet, x, res, steps⟩ .raise ⟨.threw, x, res, steps⟩
  | noAnswer {x res steps r} : synthesize r = "" →
      Moves parse reg ⟨.synthesizeGet, x, res, steps⟩ (.reply r)
        ⟨.exit (.setError "Synthesis failed" .failed), x,
          res.addTokens r.promptTokens r.completionTokens, steps⟩
  | answer {x res steps r} : synthesize r ≠ "" →
      Moves parse reg ⟨.synthesizeGet, x, res, steps⟩ (.reply r)
        ⟨.exit (.setFinalAnswer (synthesize r)), x,
          res.addTokens r.promptTokens r.completionTokens, steps⟩
  | exitNext {x res steps e e'} : Exit.next e = some e' →
      Moves parse reg ⟨.exit e, x, res, steps⟩ .tau
        ⟨.exit e', e.session x, e.result x res, steps⟩
  | exitLast {x res steps e} : Exit.next e = none →
      Moves parse reg ⟨.exit e, x, res, steps⟩ .tau ⟨.returned, e.session x, e.result x res, steps⟩

/-- The inversion of the step function. -/
theorem moves_of_next {parse : String → Option Json} {reg : ToolRegistry} {s s' : State} {l : Label}
    (hs : next parse reg s l = some s') : Moves parse reg s l s' := by
  obtain ⟨pc, x, res, steps⟩ := s
  cases pc
  case runSub i sub =>
    simp only [next] at hs
    split at hs
    · next hret =>
      split at hs
      · next step hstep =>
        cases hs
        exact .subReturned hret hstep
      · cases hs
    · split at hs
      · next sub' hsub =>
        cases hs
        have hmoves := ReActWorkflow.moves_of_next hsub
        by_cases hthrew : sub'.pc = .threw
        · simpa [hthrew] using Moves.subRaises hmoves hthrew
        · simpa [hthrew] using Moves.sub hmoves hthrew
      · cases hs
  all_goals
    cases l <;> simp only [next, Option.some.injEq, reduceCtorEq] at hs
  case createSub.now i t =>
    split at hs
    · next step hstep =>
      cases hs
      exact .createSub hstep
    · cases hs
  all_goals subst hs
  case planGet.reply r =>
    by_cases hplan : generatePlan parse r = []
    · simpa [hplan] using Moves.noPlan hplan
    · simpa [hplan] using Moves.plan hplan
  case stepHead.tau i =>
    by_cases hi : i < steps.length
    · by_cases hcancel : x.cancelRequested
      · simpa [hi, hcancel] using Moves.cancelled hi hcancel
      · simpa [hi, hcancel] using Moves.notCancelled hi (by simpa using hcancel)
    · simpa [hi] using Moves.noMoreSteps (by omega)
  case synthesizeGet.reply r =>
    by_cases hanswer : synthesize r = ""
    · simpa [hanswer] using Moves.noAnswer hanswer
    · simpa [hanswer] using Moves.answer hanswer
  case exit.tau e =>
    cases hnext : e.next with
    | none => exact .exitLast hnext
    | some e' => exact .exitNext hnext
  all_goals constructor

/-! ### How a Run Ends -/

/-- The step lets an exception out of `run`. -/
def raises (reg : ToolRegistry) (s : State) (l : Label) : Bool :=
  match s.pc, l with
  | .planComplete, .raise | .planGet, .raise => true
  | .synthesizeComplete, .raise | .synthesizeGet, .raise => true
  | .runSub _ sub, l => ReActWorkflow.raises reg sub l
  | _, _ => false

/-- The session is in a terminal state after the store on the way out,
    and in none before it. -/
def PC.Allows : PC → SessionState → Prop
  | .exit e, st => e.Allows st
  | .returned, st => st.terminal
  | _, st => st.terminal = false

/-- The session is as far as `run` is. -/
def SessionOk (s : State) : Prop := s.pc.Allows s.session.state

variable {parse : String → Option Json} {reg : ToolRegistry} {s s' : State} {l : Label}

/-- `run` ends by an exception in the steps that raise one, and in no
    others. -/
theorem threw_iff (hs : Moves parse reg s l s') : s'.pc = .threw ↔ raises reg s l := by
  cases hs
  -- a step of the run of a plan step raises what that run raises
  case sub hgoing hmoves => simpa [raises, hgoing] using ReActWorkflow.threw_iff hmoves
  case subRaises hthrew hmoves => simpa [raises, hthrew] using ReActWorkflow.threw_iff hmoves
  case subReturned hret hstep => simp [raises, ReActWorkflow.raises, hret]
  all_goals simp [raises]

/-- Every step leaves the session as far as `run` is. -/
theorem SessionOk.step (hok : SessionOk s) (hs : Moves parse reg s l s') : SessionOk s' := by
  unfold SessionOk at hok ⊢
  cases hs
  case noPlan | cancelled | noAnswer => exact ⟨hok, rfl⟩
  case storeWaiting | storeExecuting | storeSynthesizing => rfl
  -- the statements on the way out
  case exitNext hnext => exact Exit.Allows.next hok hnext
  case exitLast hlast => exact Exit.Allows.last hok hlast
  all_goals exact hok

end PlanExecuteWorkflow

end Forge
