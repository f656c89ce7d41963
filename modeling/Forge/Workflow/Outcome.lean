import Forge.Framework.Total
import Forge.Workflow.MapReduce
import Forge.Workflow.PlanExecute

/-! # What a Workflow Leaves Behind

  Every way out of the three workflows writes the result fields of the
  session first, then the terminal state, and fills its own
  `WorkflowResult` at the end:

  - `Session.Blank`, `Session.Settled`: the result fields before a way out
    is taken, and those that go with a final state;
  - `PC.Fills` of each workflow: what the fields hold at each statement;
  - `Outcome` of each workflow: the invariant of `run`;
  - `PC.Counts` of each workflow: how far `step_count` is.
-/

namespace Forge

/-! ### Result Fields -/

/-- There is neither an answer nor an error yet. -/
def Session.Blank (x : Session) : Prop := x.finalAnswer = "" ∧ x.error = ""

/-- The result fields that go with the final state `final`: an answer
    with `COMPLETED`, an error with every other one. -/
def Session.Settled (x : Session) (final : SessionState) : Prop :=
  if final = .completed then x.finalAnswer ≠ "" ∧ x.error = ""
  else x.error ≠ "" ∧ x.finalAnswer = ""

/-- Only the token totals of the result have been touched. -/
def WorkflowResult.Blank (res : WorkflowResult) : Prop :=
  res.success = false ∧ res.answer = "" ∧ res.error = ""

/-- The result says what the session holds. -/
def WorkflowResult.Reports (res : WorkflowResult) (x : Session) : Prop :=
  if x.state = .completed then res.success = true ∧ res.answer = x.finalAnswer ∧ res.error = ""
  else res.success = false ∧ res.error = x.error

theorem WorkflowResult.Blank.addTokens {res : WorkflowResult} (hres : res.Blank) (p c : ℤ) :
    (res.addTokens p c).Blank := hres

/-- An error text in front of a final state that is not `COMPLETED`. -/
theorem Session.Blank.setError {x : Session} {text : String} {final : SessionState}
    (hx : x.Blank) (htext : text ≠ "") (hfinal : final ≠ .completed) :
    { x with error := text }.Settled final := by
  rw [Session.Settled, if_neg hfinal]
  exact ⟨htext, hx.1⟩

/-- An answer in front of `COMPLETED`. -/
theorem Session.Blank.setFinalAnswer {x : Session} {text : String} (hx : x.Blank)
    (htext : text ≠ "") : { x with finalAnswer := text }.Settled .completed := by
  rw [Session.Settled, if_pos rfl]
  exact ⟨htext, hx.2⟩

theorem append_ne_empty {a b : String} (ha : a ≠ "") : a ++ b ≠ "" := by
  intro h
  exact ha (String.append_eq_empty_iff.mp h).1

/-- A session no workflow has run on. `max_iterations` is an `unsigned`. -/
structure Session.Fresh (x : Session) : Prop where
  state : x.state.terminal = false
  stepCount : x.stepCount = 0
  blank : x.Blank
  maxIterations : x.config.maxIterations < 2 ^ 32

theorem SessionState.not_terminal {st : SessionState} (hgoing : st.terminal = false) :
    ¬st.terminal := by simp [hgoing]

/-- State and result fields of two sessions agree. -/
structure Session.Agrees (x x' : Session) : Prop where
  state : x'.state = x.state
  finalAnswer : x'.finalAnswer = x.finalAnswer
  error : x'.error = x.error

theorem Session.Agrees.refl (x : Session) : x.Agrees x := ⟨rfl, rfl, rfl⟩

theorem Session.Agrees.blank {x x' : Session} (hx : x.Agrees x') (hblank : x.Blank) :
    x'.Blank := by
  rw [Session.Blank, hx.finalAnswer, hx.error]
  exact hblank

theorem Session.Agrees.settled {x x' : Session} {final : SessionState} (hx : x.Agrees x')
    (hsettled : x.Settled final) : x'.Settled final := by
  rw [Session.Settled, hx.finalAnswer, hx.error]
  exact hsettled

theorem Session.Agrees.reports {x x' : Session} {res : WorkflowResult} (hx : x.Agrees x')
    (hres : res.Reports x) : res.Reports x' := by
  rw [WorkflowResult.Reports, hx.state, hx.finalAnswer, hx.error]
  exact hres

/-- The counter goes up by one as long as it fits into its 32 bits. -/
theorem Session.countStep_of_lt {x : Session} (hlt : x.stepCount + 1 < 2 ^ 32) :
    x.countStep.stepCount = x.stepCount + 1 := Nat.mod_eq_of_lt hlt

/-! ### ReAct -/

namespace ReActWorkflow

open Workflow (Label)

variable {reg : ToolRegistry} {s s' : State} {l : Label}

/-- What the result fields hold at each statement of `run`. -/
def PC.Fills : PC → Session → Prop
  | .setError text final, x => x.Blank ∧ text ≠ "" ∧ final ≠ .completed
  | .setFinalAnswer text, x => x.Blank ∧ text ≠ ""
  | .storeFinal final, x => x.Settled final
  | .finish, x | .returned, x => x.Settled x.state
  | _, x => x.Blank

/-- The session and the result are as far as `run` is. -/
structure Outcome (s : State) : Prop where
  session : SessionOk s
  fields : s.pc.Fills s.session
  result : s.pc = .returned → s.result.Reports s.session

theorem outcome_start {x : Session} (hstate : x.state.terminal = false) (hx : x.Blank) :
    Outcome (start x) where
  session := hstate
  fields := hx
  result := by simp [start]

theorem PC.Fills.congr {pc : PC} {x x' : Session} (hpc : pc.Fills x) (hx : x.Agrees x') :
    pc.Fills x' := by
  cases pc
  case setError => exact ⟨hx.blank hpc.1, hpc.2⟩
  case setFinalAnswer => exact ⟨hx.blank hpc.1, hpc.2⟩
  case storeFinal => exact hx.settled hpc
  case finish | returned =>
    show x'.Settled x'.state
    rw [hx.state]
    exact hx.settled hpc
  all_goals exact hx.blank hpc

theorem afterAssistant_fills (msg : Message) {x : Session} (hx : x.Blank) :
    (afterAssistant msg).Fills x := by
  obtain ⟨-, hpc⟩ | ⟨-, hcontent, hpc⟩ | ⟨-, -, hpc⟩ := afterAssistant_cases msg
  · rw [hpc]
    exact hx
  · rw [hpc]
    exact ⟨hx, hcontent⟩
  · rw [hpc]
    exact ⟨hx, by decide, by decide⟩

/-- The fields of a session whose run has come to its end. -/
theorem reports_of_settled {x : Session} {res : WorkflowResult} (hx : x.Settled x.state)
    (hsuccess : res.success = decide (x.state = .completed)) (hanswer : res.answer = x.finalAnswer)
    (herror : res.error = x.error) : res.Reports x := by
  unfold WorkflowResult.Reports
  by_cases hst : x.state = .completed
  · rw [Session.Settled, if_pos hst] at hx
    rw [if_pos hst]
    exact ⟨by simpa [hst] using hsuccess, hanswer, by rw [herror, hx.2]⟩
  · rw [if_neg hst]
    exact ⟨by simpa [hst] using hsuccess, herror⟩

/-- **Step of the outcome.** -/
theorem Outcome.step (ho : Outcome s) (hs : Moves reg s l s') : Outcome s' := by
  have hsession := ho.session.step hs
  have hfields := ho.fields
  cases hs
  -- the loop of a session that is not in a terminal state is not left here
  case loopEnds hterm =>
    have hgoing := ho.session
    simp only [SessionOk, PC.Allows] at hgoing
    rw [hterm] at hgoing
    cases hgoing
  case cancelled => exact ⟨hsession, ⟨hfields, by decide, by decide⟩, by simp⟩
  case tooMany =>
    refine ⟨hsession, ⟨hfields, ?_, by decide⟩, by simp⟩
    exact append_ne_empty (append_ne_empty (by decide))
  case timedOut => exact ⟨hsession, ⟨hfields, by decide, by decide⟩, by simp⟩
  case replyError =>
    exact ⟨hsession, ⟨hfields, append_ne_empty (by decide), by decide⟩, by simp⟩
  case pushAssistant msg =>
    refine ⟨hsession, afterAssistant_fills msg hfields, ?_⟩
    intro hret
    obtain ⟨-, hpc⟩ | ⟨-, -, hpc⟩ | ⟨-, -, hpc⟩ := afterAssistant_cases msg <;>
      simp [hpc] at hret
  case setError => exact ⟨hsession, hfields.1.setError hfields.2.1 hfields.2.2, by simp⟩
  case setFinalAnswer => exact ⟨hsession, hfields.1.setFinalAnswer hfields.2, by simp⟩
  case storeFinal => exact ⟨hsession, hfields, by simp⟩
  case finish =>
    refine ⟨hsession, hfields, ?_⟩
    intro _
    exact reports_of_settled hfields rfl rfl rfl
  all_goals exact ⟨hsession, hfields, by simp⟩

/-- A session in a terminal state has the result that goes with it. -/
theorem Outcome.settled (ho : Outcome s) (hterm : s.session.state.terminal) :
    s.session.Settled s.session.state := by
  have hallows : s.pc.Allows s.session.state := ho.session
  have hfields := ho.fields
  cases hpc : s.pc <;> rw [hpc] at hallows hfields
  case finish | returned => exact hfields
  case setError | storeFinal => exact absurd hterm (SessionState.not_terminal hallows.1)
  all_goals exact absurd hterm (SessionState.not_terminal hallows)

/-- What has been settled stays: `run` writes neither the result fields
    nor the state of a session in a terminal state. -/
theorem Outcome.agrees (ho : Outcome s) (hterm : s.session.state.terminal)
    (hs : Moves reg s l s') : s.session.Agrees s'.session := by
  have hallows : s.pc.Allows s.session.state := ho.session
  cases hs
  case storeWaiting | storeExecuting | setFinalAnswer =>
    exact absurd hterm (SessionState.not_terminal hallows)
  case setError | storeFinal => exact absurd hterm (SessionState.not_terminal hallows.1)
  all_goals exact ⟨rfl, rfl, rfl⟩

theorem config_eq (hs : Moves reg s l s') : s'.session.config = s.session.config := by
  cases hs <;> rfl

/-- The counter is below the bound where the guard has been passed, and
    never above it. -/
def PC.Counts : PC → Session → Prop
  | .checkTimeout, x | .storeWaiting, x | .countStep, x => x.stepCount < x.config.maxIterations
  | _, x => x.stepCount ≤ x.config.maxIterations

theorem PC.Counts.le {pc : PC} {x : Session} (hc : pc.Counts x) :
    x.stepCount ≤ x.config.maxIterations := by
  cases pc
  case checkTimeout | storeWaiting | countStep => exact Nat.le_of_lt hc
  all_goals exact hc

/-- The guard keeps the counter from going past its bound, hence from
    starting anew. -/
theorem PC.Counts.step (hmax : s.session.config.maxIterations < 2 ^ 32)
    (hc : s.pc.Counts s.session) (hs : Moves reg s l s') :
    s'.pc.Counts s'.session ∧ s.session.stepCount ≤ s'.session.stepCount := by
  cases hs
  case notTooMany hlt => exact ⟨hlt, le_rfl⟩
  case timedOut => exact ⟨Nat.le_of_lt hc, le_rfl⟩
  case countStep x res =>
    have hlt : x.stepCount < x.config.maxIterations := hc
    have hcount := Session.countStep_of_lt (x := x) (Nat.lt_of_le_of_lt hlt hmax)
    refine ⟨?_, ?_⟩
    · show x.countStep.stepCount ≤ x.config.maxIterations
      omega
    · show x.stepCount ≤ x.countStep.stepCount
      omega
  case pushAssistant msg =>
    refine ⟨?_, le_rfl⟩
    obtain ⟨-, hpc⟩ | ⟨-, -, hpc⟩ | ⟨-, -, hpc⟩ := afterAssistant_cases msg <;> rw [hpc] <;>
      exact hc
  all_goals exact ⟨hc, le_rfl⟩

end ReActWorkflow
/-! ### The Statements on the Way Out -/

namespace Workflow

/-- What the result fields hold at each statement on the way out. -/
def Exit.Fills : Exit → Session → WorkflowResult → Prop
  | .setError text final, x, res => x.Blank ∧ res.Blank ∧ text ≠ "" ∧ final ≠ .completed
  | .storeError final, x, res => x.Settled final ∧ res.Blank ∧ final ≠ .completed
  | .fillError, x, res => x.Settled x.state ∧ res.Blank ∧ x.state ≠ .completed
  | .setFinalAnswer answer, x, res => x.Blank ∧ res.Blank ∧ answer ≠ ""
  | .storeCompleted answer, x, res => x.Settled .completed ∧ res.Blank ∧ x.finalAnswer = answer
  | .fillAnswer answer, x, res =>
      x.Settled x.state ∧ res.Blank ∧ x.finalAnswer = answer ∧ x.state = .completed

theorem Exit.Fills.congr {e : Exit} {x x' : Session} {res res' : WorkflowResult}
    (he : e.Fills x res) (hx : x.Agrees x') (hres : res.Blank → res'.Blank) : e.Fills x' res' := by
  cases e
  case setError => exact ⟨hx.blank he.1, hres he.2.1, he.2.2⟩
  case storeError => exact ⟨hx.settled he.1, hres he.2.1, he.2.2⟩
  case setFinalAnswer => exact ⟨hx.blank he.1, hres he.2.1, he.2.2⟩
  case fillError =>
    show x'.Settled x'.state ∧ res'.Blank ∧ x'.state ≠ .completed
    rw [hx.state]
    exact ⟨hx.settled he.1, hres he.2.1, he.2.2⟩
  case storeCompleted => exact ⟨hx.settled he.1, hres he.2.1, hx.finalAnswer.trans he.2.2⟩
  case fillAnswer =>
    refine ⟨?_, hres he.2.1, hx.finalAnswer.trans he.2.2.1, hx.state.trans he.2.2.2⟩
    rw [hx.state]
    exact hx.settled he.1

/-- Every statement on the way out fills what the next one expects. -/
theorem Exit.Fills.next {e e' : Exit} {x : Session} {res : WorkflowResult} (he : e.Fills x res)
    (hnext : e.next = some e') : e'.Fills (e.session x) (e.result x res) := by
  cases e <;> cases hnext
  case setError text final => exact ⟨he.1.setError he.2.2.1 he.2.2.2, he.2.1, he.2.2.2⟩
  case storeError final => exact he
  case setFinalAnswer answer => exact ⟨he.1.setFinalAnswer he.2.2, he.2.1, rfl⟩
  case storeCompleted answer => exact ⟨he.1, he.2.1, he.2.2, rfl⟩

/-- The statements on the way out leave a settled session alone. -/
theorem Exit.agrees {e : Exit} {x : Session} (hok : e.Allows x.state) (hterm : x.state.terminal) :
    x.Agrees (e.session x) := by
  cases e
  case setError | storeError => exact absurd hterm (SessionState.not_terminal hok.1)
  case setFinalAnswer | storeCompleted => exact absurd hterm (SessionState.not_terminal hok)
  all_goals exact .refl x

/-- A settled session on the way out. -/
theorem Exit.settled {e : Exit} {x : Session} {res : WorkflowResult} (hok : e.Allows x.state)
    (he : e.Fills x res) (hterm : x.state.terminal) : x.Settled x.state := by
  cases e
  case setError | storeError => exact absurd hterm (SessionState.not_terminal hok.1)
  case setFinalAnswer | storeCompleted => exact absurd hterm (SessionState.not_terminal hok)
  all_goals exact he.1

/-- The last statement on the way out completes the result. -/
theorem Exit.Fills.last {e : Exit} {x : Session} {res : WorkflowResult} (he : e.Fills x res)
    (hlast : e.next = none) :
    (e.session x).Settled (e.session x).state ∧ (e.result x res).Reports (e.session x) := by
  cases e
  case fillError =>
    refine ⟨he.1, ?_⟩
    show WorkflowResult.Reports _ x
    rw [WorkflowResult.Reports, if_neg he.2.2]
    exact ⟨he.2.1.1, rfl⟩
  case fillAnswer answer =>
    refine ⟨he.1, ?_⟩
    show WorkflowResult.Reports _ x
    rw [WorkflowResult.Reports, if_pos he.2.2.2]
    exact ⟨rfl, he.2.2.1.symm, he.2.1.2.2⟩
  all_goals cases hlast

end Workflow

/-! ### Plan-and-Execute -/

namespace PlanExecuteWorkflow

open Workflow (Label Exit)

variable {parse : String → Option Json} {reg : ToolRegistry} {s s' : State} {l : Label}

/-- What the result fields hold at each statement of `run`. -/
def PC.Fills : PC → Session → WorkflowResult → Prop
  | .exit e, x, res => e.Fills x res
  | .returned, x, res => x.Settled x.state ∧ res.Reports x
  | _, x, res => x.Blank ∧ res.Blank

/-- The session and the result are as far as `run` is. -/
structure Outcome (s : State) : Prop where
  session : SessionOk s
  fields : s.pc.Fills s.session s.result

theorem outcome_start {x : Session} (hstate : x.state.terminal = false) (hx : x.Blank) :
    Outcome (start x) where
  session := hstate
  fields := ⟨hx, rfl, rfl, rfl⟩

theorem PC.Fills.congr {pc : PC} {x x' : Session} {res : WorkflowResult} (hpc : pc.Fills x res)
    (hx : x.Agrees x') : pc.Fills x' res := by
  cases pc
  case exit e => exact Exit.Fills.congr hpc hx id
  case returned =>
    refine ⟨?_, hx.reports hpc.2⟩
    rw [hx.state]
    exact hx.settled hpc.1
  all_goals exact ⟨hx.blank hpc.1, hpc.2⟩

/-- **Step of the outcome.** -/
theorem Outcome.step (ho : Outcome s) (hs : Moves parse reg s l s') : Outcome s' := by
  refine ⟨ho.session.step hs, ?_⟩
  have hfields := ho.fields
  cases hs
  case noPlan => exact ⟨hfields.1, hfields.2.addTokens _ _, by decide, by decide⟩
  case cancelled => exact ⟨hfields.1, hfields.2, by decide, by decide⟩
  case noAnswer => exact ⟨hfields.1, hfields.2.addTokens _ _, by decide, by decide⟩
  case answer hanswer => exact ⟨hfields.1, hfields.2.addTokens _ _, hanswer⟩
  case exitNext hnext => exact Exit.Fills.next hfields hnext
  case exitLast hlast => exact Exit.Fills.last hfields hlast
  all_goals exact hfields

/-- A session in a terminal state has the result that goes with it. -/
theorem Outcome.settled (ho : Outcome s) (hterm : s.session.state.terminal) :
    s.session.Settled s.session.state := by
  have hallows : s.pc.Allows s.session.state := ho.session
  have hfields := ho.fields
  cases hpc : s.pc <;> rw [hpc] at hallows hfields
  case exit e => exact Exit.settled hallows hfields hterm
  case returned => exact hfields.1
  all_goals exact absurd hterm (SessionState.not_terminal hallows)

/-- What has been settled stays. -/
theorem Outcome.agrees (ho : Outcome s) (hterm : s.session.state.terminal)
    (hs : Moves parse reg s l s') : s.session.Agrees s'.session := by
  have hallows : s.pc.Allows s.session.state := ho.session
  cases hs
  case storeWaiting | storeExecuting | storeSynthesizing =>
    exact absurd hterm (SessionState.not_terminal hallows)
  case exitNext | exitLast => exact Exit.agrees hallows hterm
  all_goals exact ⟨rfl, rfl, rfl⟩

/-- The counter is the number of plan steps begun, on 32 bits; `n` is the
    length of the plan. -/
def PC.Counts (n : ℕ) : PC → ℕ → Prop
  | .storeWaiting, k | .planComplete, k | .planGet, k => n = 0 ∧ k = 0
  | .storeExecuting, k => k = 0
  | .stepHead i, k => k = i % 2 ^ 32
  | .countStep i, k => i < n ∧ k = i % 2 ^ 32
  | .createSub i, k | .runSub i _, k => k = (i + 1) % 2 ^ 32
  | _, _ => True

/-- Counting plan step `i` of fewer than 2^32. -/
theorem le_countStep {x : Session} {i n : ℕ} (hi : i < n) (hcount : x.stepCount = i % 2 ^ 32)
    (hn : n < 2 ^ 32) : x.stepCount ≤ x.countStep.stepCount := by
  have hi' : i % 2 ^ 32 = i := Nat.mod_eq_of_lt (hi.trans hn)
  rw [Session.countStep_of_lt (by omega)]
  omega

/-- With fewer than 2^32 plan steps the counter never starts anew. -/
theorem PC.Counts.step (hc : s.pc.Counts s.steps.length s.session.stepCount)
    (hs : Moves parse reg s l s') :
    s'.pc.Counts s'.steps.length s'.session.stepCount ∧
      (s'.steps.length < 2 ^ 32 →
        s.steps.length < 2 ^ 32 ∧ s.session.stepCount ≤ s'.session.stepCount) := by
  cases hs
  -- there are no steps before the plan
  case noPlan =>
    have hempty : List.length _ = 0 := hc.1
    exact ⟨trivial, fun _ => ⟨by simp [hempty], le_rfl⟩⟩
  case plan =>
    have hempty : List.length _ = 0 := hc.1
    exact ⟨hc.2, fun _ => ⟨by simp [hempty], le_rfl⟩⟩
  case storeExecuting => exact ⟨hc, fun hn => ⟨hn, le_rfl⟩⟩
  case cancelled | noMoreSteps => exact ⟨trivial, fun hn => ⟨hn, le_rfl⟩⟩
  case notCancelled hi _ => exact ⟨⟨hi, hc⟩, fun hn => ⟨hn, le_rfl⟩⟩
  case countStep x res steps i =>
    have hcount : x.stepCount = i % 2 ^ 32 := hc.2
    refine ⟨?_, fun hn => ⟨hn, le_countStep hc.1 hcount hn⟩⟩
    show (x.stepCount + 1) % 2 ^ 32 = (i + 1) % 2 ^ 32
    rw [hcount, Nat.mod_add_mod]
  case subReturned hret hstep =>
    refine ⟨hc, fun hn => ⟨?_, le_rfl⟩⟩
    simpa using hn
  case exitNext e e' hnext =>
    exact ⟨trivial, fun hn => ⟨hn, by cases e <;> exact le_rfl⟩⟩
  case exitLast e hlast =>
    exact ⟨trivial, fun hn => ⟨hn, by cases e <;> exact le_rfl⟩⟩
  all_goals exact ⟨by first | exact hc | trivial, fun hn => ⟨hn, le_rfl⟩⟩

end PlanExecuteWorkflow

/-! ### Map-Reduce -/

namespace MapReduceWorkflow

open Workflow (Label Exit)

variable {parse : String → Option Json} {reg : ToolRegistry} {s s' : State} {a : Action}

/-- What the result fields hold at each statement of `run`. -/
def PC.Fills : PC → Session → WorkflowResult → Prop
  | .exit e, x, res => e.Fills x res
  | .returned, x, res => x.Settled x.state ∧ res.Reports x
  | _, x, res => x.Blank ∧ res.Blank

/-- The session and the result are as far as `run` is. -/
structure Outcome (s : State) : Prop where
  inv : Inv s
  fields : s.pc.Fills s.session s.result

theorem outcome_start {x : Session} (hstate : x.state.terminal = false) (hx : x.Blank) :
    Outcome (start x) where
  inv := inv_start hstate
  fields := ⟨hx, rfl, rfl, rfl⟩

theorem PC.Fills.congr {pc : PC} {x x' : Session} {res : WorkflowResult} (hpc : pc.Fills x res)
    (hx : x.Agrees x') : pc.Fills x' res := by
  cases pc
  case exit e => exact Exit.Fills.congr hpc hx id
  case returned =>
    refine ⟨?_, hx.reports hpc.2⟩
    rw [hx.state]
    exact hx.settled hpc.1
  all_goals exact ⟨hx.blank hpc.1, hpc.2⟩

/-- A statement of `run` fills what the next one expects. -/
theorem PC.Fills.main {l : Label} (hfields : s.pc.Fills s.session s.result)
    (hs : MainMoves parse s l s') : s'.pc.Fills s'.session s'.result := by
  cases hs
  case noTasks => exact ⟨hfields.1, hfields.2.addTokens _ _, by decide, by decide⟩
  case cancelled => exact ⟨hfields.1, hfields.2, by decide, by decide⟩
  case noAnswer => exact ⟨hfields.1, hfields.2.addTokens _ _, by decide, by decide⟩
  case answer hanswer => exact ⟨hfields.1, hfields.2.addTokens _ _, hanswer⟩
  case exitNext hnext => exact Exit.Fills.next hfields hnext
  case exitLast hlast => exact Exit.Fills.last hfields hlast
  all_goals exact hfields

/-- A sub-task writes the counter, the token totals and its own entry, and
    nothing else of what it shares with `run`. -/
theorem PC.Fills.sub {i : ℕ} {l : Label} (hfields : s.pc.Fills s.session s.result)
    (hs : SubMoves reg i s l s') : s'.pc.Fills s'.session s'.result := by
  cases hs
  case countStep => exact hfields.congr ⟨rfl, rfl, rfl⟩
  case addTokens =>
    cases hpc : s.pc <;> rw [hpc] at hfields
    case exit e => exact Exit.Fills.congr hfields (.refl _) fun hres => hres.addTokens _ _
    all_goals exact hfields
  all_goals exact hfields

/-- **Step of the outcome.** -/
theorem Outcome.step (ho : Outcome s) (hs : next parse reg s a = some s') : Outcome s' := by
  refine ⟨ho.inv.step hs, ?_⟩
  cases a with
  | main l => exact ho.fields.main (mainMoves_of_next hs)
  | sub i l => exact ho.fields.sub (subMoves_of_next hs)

/-- A session in a terminal state has the result that goes with it. -/
theorem Outcome.settled (ho : Outcome s) (hterm : s.session.state.terminal) :
    s.session.Settled s.session.state := by
  have hallows : s.pc.Allows s.session.state := ho.inv.session
  have hfields := ho.fields
  cases hpc : s.pc <;> rw [hpc] at hallows hfields
  case exit e => exact Exit.settled hallows hfields hterm
  case returned => exact hfields.1
  all_goals exact absurd hterm (SessionState.not_terminal hallows)

/-- What has been settled stays. -/
theorem Outcome.agrees (ho : Outcome s) (hterm : s.session.state.terminal)
    (hs : next parse reg s a = some s') : s.session.Agrees s'.session := by
  have hallows : s.pc.Allows s.session.state := ho.inv.session
  cases a with
  | main l =>
    cases mainMoves_of_next hs
    case storeWaiting | storeExecuting | storeReducing =>
      exact absurd hterm (SessionState.not_terminal hallows)
    case exitNext | exitLast => exact Exit.agrees hallows hterm
    all_goals exact ⟨rfl, rfl, rfl⟩
  | sub i l => cases subMoves_of_next hs <;> exact ⟨rfl, rfl, rfl⟩

/-- A sub-task that may have counted itself. -/
def SubPC.passed : SubPC → ℕ
  | .pending | .checkCancel | .countStep => 0
  | _ => 1

theorem SubPC.passed_le (pc : SubPC) : pc.passed ≤ 1 := by
  cases pc <;> simp [SubPC.passed]

/-- `decompose` has not returned. -/
def PC.decomposing : PC → Bool
  | .storeWaiting | .decomposeComplete | .decomposeGet => true
  | _ => false

/-- The counter is not ahead of the sub-tasks that have passed it. -/
structure Counts (s : State) : Prop where
  lengths : s.subs.length = s.tasks.length
  le : s.session.stepCount ≤ LTS.listTotal SubPC.passed s.subs
  decomposing : s.pc.decomposing → s.tasks = []

theorem counts_start {x : Session} (hx : x.stepCount = 0) : Counts (start x) where
  lengths := rfl
  le := by simp [start, hx]
  decomposing := fun _ => rfl

/-- Before there are sub-tasks the counter stands at zero. -/
theorem Counts.eq_zero (hc : Counts s) (hpc : s.pc.decomposing) : s.session.stepCount = 0 := by
  have hlen := hc.lengths
  have hle := hc.le
  rw [hc.decomposing hpc, List.length_nil, List.length_eq_zero_iff] at hlen
  simpa [hlen, LTS.listTotal] using hle

/-- `run` itself does not count. -/
theorem Counts.main {l : Label} (hi : Inv s) (hc : Counts s) (hs : MainMoves parse s l s') :
    Counts s' ∧ s'.session.stepCount = s.session.stepCount ∧
      (s'.tasks.length < 2 ^ 32 → s.tasks.length < 2 ^ 32) := by
  have hzero := hc.eq_zero
  have hunsub := hi.unsubmitted
  obtain ⟨hlen, hle, hdec⟩ := hc
  cases hs
  case storeWaiting | decomposeComplete => exact ⟨⟨hlen, hle, hdec⟩, rfl, id⟩
  case noTasks | decomposed =>
    refine ⟨⟨by simp, ?_, by simp [PC.decomposing]⟩, rfl, ?_⟩
    · exact (hzero rfl).le.trans (Nat.zero_le _)
    · intro _
      have hnil := hdec rfl
      simp only at hnil
      simp [hnil]
  case submit x res tasks subs i hlt =>
    refine ⟨⟨by simpa using hlen, ?_, by simp [PC.decomposing]⟩, rfl, id⟩
    have hi : i < subs.length := by
      simp only at hlen
      omega
    obtain ⟨pc, hpc⟩ : ∃ pc, subs[i]? = some pc := ⟨_, List.getElem?_eq_getElem hi⟩
    have hpending := hunsub i rfl i le_rfl pc hpc
    subst hpending
    have htotal := LTS.listTotal_set SubPC.passed hpc .checkCancel
    simp only [SubPC.passed, Nat.add_zero] at htotal
    simpa [htotal] using hle
  case exitNext e e' hnext =>
    cases e <;> exact ⟨⟨hlen, hle, by simp [PC.decomposing]⟩, rfl, id⟩
  case exitLast e hlast =>
    cases e <;> exact ⟨⟨hlen, hle, by simp [PC.decomposing]⟩, rfl, id⟩
  all_goals exact ⟨⟨hlen, hle, by simp [PC.decomposing]⟩, rfl, id⟩

/-- A sub-task that goes on. -/
theorem passed_set {subs : List SubPC} {i : ℕ} {pc pc' : SubPC} (hpc : subs[i]? = some pc)
    (hle : pc.passed ≤ pc'.passed) :
    LTS.listTotal SubPC.passed subs ≤ LTS.listTotal SubPC.passed (subs.set i pc') := by
  have htotal := LTS.listTotal_set SubPC.passed hpc pc'
  omega

/-- A sub-task that counts itself has not passed before, so that there is
    room for it among fewer than 2^32. -/
theorem Counts.countStep {i : ℕ} (hc : Counts s) (hpc : s.subs[i]? = some .countStep) :
    s.session.countStep.stepCount ≤ LTS.listTotal SubPC.passed (s.subs.set i .createSub) ∧
      (s.tasks.length < 2 ^ 32 → s.session.stepCount ≤ s.session.countStep.stepCount) := by
  have htotal := LTS.listTotal_set SubPC.passed hpc .createSub
  have hbound := LTS.listTotal_le_length SubPC.passed_le (s.subs.set i .createSub)
  have hle := hc.le
  simp only [SubPC.passed, Nat.add_zero] at htotal
  rw [List.length_set, hc.lengths] at hbound
  have hmod : s.session.countStep.stepCount ≤ s.session.stepCount + 1 := Nat.mod_le _ _
  refine ⟨by omega, ?_⟩
  intro hn
  rw [Session.countStep_of_lt (by omega)]
  omega

/-- A step of a sub-task keeps the counter behind. -/
theorem Counts.sub {i : ℕ} {l : Label} (hc : Counts s) (hs : SubMoves reg i s l s') :
    Counts s' ∧ s'.tasks.length = s.tasks.length ∧
      (s.tasks.length < 2 ^ 32 → s.session.stepCount ≤ s'.session.stepCount) := by
  have hcount := fun hpc => hc.countStep (i := i) hpc
  obtain ⟨hlen, hle, hdec⟩ := hc
  have hlen' : ∀ pc, (s.subs.set i pc).length = s.tasks.length := by
    intro pc
    rw [List.length_set, hlen]
  cases hs
  case countStep hpc =>
    exact ⟨⟨hlen' _, (hcount hpc).1, hdec⟩, rfl, (hcount hpc).2⟩
  case writeResult task res hpc htask =>
    refine ⟨⟨by simpa using hlen, hle.trans (passed_set hpc le_rfl), ?_⟩, by simp, fun _ => le_rfl⟩
    intro hdecomposing
    simp [hdec hdecomposing]
  case cancelled hpc _ | notCancelled hpc _ | createSub hpc _ =>
    exact ⟨⟨hlen' _, hle.trans (passed_set hpc (by simp [SubPC.passed])), hdec⟩, rfl,
      fun _ => le_rfl⟩
  case sub hpc _ _ | subRaises hpc _ _ | subReturned hpc _ | addTokens hpc =>
    exact ⟨⟨hlen' _, hle.trans (passed_set hpc le_rfl), hdec⟩, rfl, fun _ => le_rfl⟩

/-- **Step of the counter.** -/
theorem Counts.step (hi : Inv s) (hc : Counts s) (hs : next parse reg s a = some s') :
    Counts s' ∧ (s'.tasks.length < 2 ^ 32 →
      s.tasks.length < 2 ^ 32 ∧ s.session.stepCount ≤ s'.session.stepCount) := by
  cases a with
  | main l =>
    obtain ⟨hc', heq, hlen⟩ := hc.main hi (mainMoves_of_next hs)
    exact ⟨hc', fun hn => ⟨hlen hn, heq.ge⟩⟩
  | sub i l =>
    obtain ⟨hc', heq, hmono⟩ := hc.sub (subMoves_of_next hs)
    exact ⟨hc', fun hn => ⟨heq ▸ hn, hmono (heq ▸ hn)⟩⟩

end MapReduceWorkflow

end Forge
