import Forge.Framework.System
import Forge.Workflow.MapReduce
import Forge.Workflow.PlanExecute

/-! # The Task of a Session

  `SessionManager::create_session` (`session/session_manager.cpp`) makes a
  session and dispatches one task for it on the pool. The task stores
  `WAITING_FOR_LLM`, makes the workflow and runs it. The wrapper of
  `ThreadPool::submit` puts an exception that leaves the task into its
  promise, so that the future is ready afterwards in any case.

  Cancellation may come at any moment. The sub-tasks of a map-reduce run
  may go on after the task has finished.
-/

namespace Forge

open LTS

/-- The workflows `main` registers. -/
inductive WorkflowKind where
  | react
  | planExecute
  | mapReduce
  deriving DecidableEq

/-- The names the workflows are registered under. -/
def WorkflowFactory.create : String → Option WorkflowKind
  | "react" => some .react
  | "plan-execute" => some .planExecute
  | "map-reduce" => some .mapReduce
  | _ => none

/-- The request of a session, with a timeout of zero or more. -/
structure CreateSessionRequest where
  prompt : String
  systemMessage : String := "You are a helpful assistant."
  workflow : String := "react"
  tools : List String := []
  config : SessionConfig := {}
  deriving DecidableEq

/-- The session for a request, at time `now`. -/
def CreateSessionRequest.newSession (req : CreateSessionRequest) (id now : ℕ) : Session :=
  let s := Session.new id req.config now
  let sys : Message := { role := "system", content := req.systemMessage }
  let user : Message := { role := "user", content := req.prompt }
  let history := if req.systemMessage ≠ "" then s.history.push sys else s.history
  { s with initialPrompt := req.prompt, history := history.push user }

/-- `create_session` up to the dispatch. `inserted` is the answer of
    `insert_if_under`. -/
def createSession (maxSessions : ℕ) (inserted : Bool) (id now : ℕ) (req : CreateSessionRequest) :
    Except String (WorkflowKind × Session) :=
  match WorkflowFactory.create req.workflow with
  | none => .error ("Unknown workflow: " ++ req.workflow)
  | some kind =>
      if inserted then .ok (kind, req.newSession id now)
      else .error ("At capacity (" ++ toString maxSessions ++ " sessions)")

/-! ### A Workflow of Any Kind -/

open MapReduceWorkflow (Action)

/-- The state of `wf->run(*sess_ptr)`. -/
inductive WorkflowState where
  | react (s : ReActWorkflow.State)
  | planExecute (s : PlanExecuteWorkflow.State)
  | mapReduce (s : MapReduceWorkflow.State)
  deriving DecidableEq

namespace WorkflowState

/-- The start of `run`. -/
def start : WorkflowKind → Session → WorkflowState
  | .react, x => .react (ReActWorkflow.start x)
  | .planExecute, x => .planExecute (PlanExecuteWorkflow.start x)
  | .mapReduce, x => .mapReduce (MapReduceWorkflow.start x)

def session : WorkflowState → Session
  | .react s => s.session
  | .planExecute s => s.session
  | .mapReduce s => s.session

def mapSession (f : Session → Session) : WorkflowState → WorkflowState
  | .react s => .react { s with session := f s.session }
  | .planExecute s => .planExecute { s with session := f s.session }
  | .mapReduce s => .mapReduce { s with session := f s.session }

def next (parse : String → Option Json) (reg : ToolRegistry) :
    WorkflowState → Action → Option WorkflowState
  | .react s, .main l => (ReActWorkflow.next reg s l).map .react
  | .planExecute s, .main l => (PlanExecuteWorkflow.next parse reg s l).map .planExecute
  | .mapReduce s, a => (MapReduceWorkflow.next parse reg s a).map .mapReduce
  | _, _ => none

/-- `run` has returned or thrown. -/
def isOver : WorkflowState → Bool
  | .react s => s.pc = .returned ∨ s.pc = .threw
  | .planExecute s => s.pc = .returned ∨ s.pc = .threw
  | .mapReduce s => s.pc = .returned ∨ s.pc = .threw

/-- The step raises an exception in `run` or in a sub-task: the LLM client
    throws, or its future holds an exception, or a tool throws what is no
    `std::exception`. -/
def raises (reg : ToolRegistry) : WorkflowState → Action → Bool
  | .react s, .main l => ReActWorkflow.raises reg s l
  | .planExecute s, .main l => PlanExecuteWorkflow.raises reg s l
  | .mapReduce s, a => MapReduceWorkflow.raises reg s a
  | _, _ => false

/-- An exception has been raised. -/
def Raised : WorkflowState → Prop
  | .react s => s.pc = .threw
  | .planExecute s => s.pc = .threw
  | .mapReduce s => MapReduceWorkflow.Raised s

/-- The session is as far as `run` is. -/
def Inv : WorkflowState → Prop
  | .react s => ReActWorkflow.SessionOk s
  | .planExecute s => PlanExecuteWorkflow.SessionOk s
  | .mapReduce s => MapReduceWorkflow.Inv s

variable {parse : String → Option Json} {reg : ToolRegistry} {w w' : WorkflowState} {a : Action}

/-- A step of a workflow, by its kind. -/
theorem next_cases (hs : w.next parse reg a = some w') :
    (∃ s s' l, w = .react s ∧ a = .main l ∧ w' = .react s' ∧ ReActWorkflow.Moves reg s l s') ∨
    (∃ s s' l, w = .planExecute s ∧ a = .main l ∧ w' = .planExecute s' ∧
      PlanExecuteWorkflow.Moves parse reg s l s') ∨
    (∃ s s', w = .mapReduce s ∧ w' = .mapReduce s' ∧
      MapReduceWorkflow.next parse reg s a = some s') := by
  cases w <;> cases a <;> simp only [next, Option.map_eq_some_iff, reduceCtorEq] at hs
  case react.main =>
    obtain ⟨s', hs', rfl⟩ := hs
    exact .inl ⟨_, _, _, rfl, rfl, rfl, ReActWorkflow.moves_of_next hs'⟩
  case planExecute.main =>
    obtain ⟨s', hs', rfl⟩ := hs
    exact .inr (.inl ⟨_, _, _, rfl, rfl, rfl, PlanExecuteWorkflow.moves_of_next hs'⟩)
  case mapReduce.main | mapReduce.sub =>
    obtain ⟨s', hs', rfl⟩ := hs
    exact .inr (.inr ⟨_, _, rfl, rfl, hs'⟩)

theorem inv_start (kind : WorkflowKind) {x : Session} (hx : x.state.terminal = false) :
    (start kind x).Inv := by
  cases kind with
  | react => exact hx
  | planExecute => exact hx
  | mapReduce => exact MapReduceWorkflow.inv_start hx

theorem not_raised_start (kind : WorkflowKind) (x : Session) : ¬(start kind x).Raised := by
  cases kind <;>
    simp [start, Raised, ReActWorkflow.start, PlanExecuteWorkflow.start, MapReduceWorkflow.start,
      MapReduceWorkflow.Raised]

theorem Inv.step (hi : w.Inv) (hs : w.next parse reg a = some w') : w'.Inv := by
  obtain ⟨s, s', l, rfl, rfl, rfl, hs'⟩ | ⟨s, s', l, rfl, rfl, rfl, hs'⟩ | ⟨s, s', rfl, rfl, hs'⟩ :=
    next_cases hs
  · exact ReActWorkflow.SessionOk.step hi hs'
  · exact PlanExecuteWorkflow.SessionOk.step hi hs'
  · exact MapReduceWorkflow.Inv.step hi hs'

/-- An exception has been raised after a step if it was before, or the
    step raises one. -/
theorem raised_step (hi : w.Inv) (hs : w.next parse reg a = some w') :
    w'.Raised ↔ w.Raised ∨ w.raises reg a := by
  obtain ⟨s, s', l, rfl, rfl, rfl, hs'⟩ | ⟨s, s', l, rfl, rfl, rfl, hs'⟩ | ⟨s, s', rfl, rfl, hs'⟩ :=
    next_cases hs
  · have hgoing : s.pc ≠ .threw := by
      intro hpc
      cases hs' <;> cases hpc
    simp only [Raised, raises, hgoing, false_or]
    exact ReActWorkflow.threw_iff hs'
  · have hgoing : s.pc ≠ .threw := by
      intro hpc
      cases hs' <;> cases hpc
    simp only [Raised, raises, hgoing, false_or]
    exact PlanExecuteWorkflow.threw_iff hs'
  · exact MapReduceWorkflow.raised_step hi.toLoops hs'

/-- When `run` is over the session is in a terminal state, unless an
    exception has been raised. -/
theorem Inv.terminal_iff (hi : w.Inv) (hover : w.isOver) : w.session.isTerminal ↔ ¬w.Raised := by
  cases w with
  | react s =>
    simp only [isOver, decide_eq_true_eq] at hover
    have hallows : s.pc.Allows s.session.state := hi
    rcases hover with hpc | hpc <;> rw [hpc] at hallows <;>
      simp only [ReActWorkflow.PC.Allows] at hallows <;>
      simp [session, Session.isTerminal, Raised, hpc, hallows]
  | planExecute s =>
    simp only [isOver, decide_eq_true_eq] at hover
    have hallows : s.pc.Allows s.session.state := hi
    rcases hover with hpc | hpc <;> rw [hpc] at hallows <;>
      simp only [PlanExecuteWorkflow.PC.Allows] at hallows <;>
      simp [session, Session.isTerminal, Raised, hpc, hallows]
  | mapReduce s =>
    simp only [isOver, decide_eq_true_eq] at hover
    have hallows : s.pc.Allows s.session.state := hi.session
    rcases hover with hpc | hpc <;> rw [hpc] at hallows <;>
      simp only [MapReduceWorkflow.PC.Allows] at hallows
    · simp [session, Session.isTerminal, Raised, hallows, hi.not_raised hpc]
    · simp [session, Session.isTerminal, Raised, hallows, MapReduceWorkflow.Raised, hpc]

/-- What changes no state of the session changes nothing here. -/
theorem Inv.mapSession {f : Session → Session} (hf : ∀ x, (f x).state = x.state) (hi : w.Inv) :
    (w.mapSession f).Inv := by
  cases w with
  | react s =>
    have hallows : s.pc.Allows (f s.session).state := by
      rw [hf]
      exact hi
    exact hallows
  | planExecute s =>
    have hallows : s.pc.Allows (f s.session).state := by
      rw [hf]
      exact hi
    exact hallows
  | mapReduce s =>
    refine ⟨⟨hi.joined, hi.unsubmitted⟩, ?_⟩
    have hallows : s.pc.Allows (f s.session).state := by
      rw [hf]
      exact hi.session
    exact hallows

theorem raised_mapSession (f : Session → Session) : (w.mapSession f).Raised ↔ w.Raised := by
  cases w <;> exact Iff.rfl

theorem isOver_mapSession (f : Session → Session) : (w.mapSession f).isOver = w.isOver := by
  cases w <;> rfl

/-- A sub-task does not touch what `run` has come to. -/
theorem isOver_step (hover : w.isOver) (hs : w.next parse reg a = some w') : w'.isOver := by
  obtain ⟨s, s', l, rfl, rfl, rfl, hs'⟩ | ⟨s, s', l, rfl, rfl, rfl, hs'⟩ | ⟨s, s', rfl, rfl, hs'⟩ :=
    next_cases hs
  -- a run that is over takes no step
  · simp only [isOver, decide_eq_true_eq] at hover
    rcases hover with hpc | hpc <;> cases hs' <;> cases hpc
  · simp only [isOver, decide_eq_true_eq] at hover
    rcases hover with hpc | hpc <;> cases hs' <;> cases hpc
  · cases a with
    | main l =>
      simp only [isOver, decide_eq_true_eq] at hover
      rcases hover with hpc | hpc <;> cases MapReduceWorkflow.mainMoves_of_next hs' <;> cases hpc
    | sub i l =>
      obtain ⟨hpc', -⟩ := MapReduceWorkflow.sub_cases hs'
      simpa [isOver, hpc'] using hover

end WorkflowState

/-! ### The Dispatched Task -/

namespace SessionTask

/-- Where the dispatched task is. -/
inductive State where
  /-- In the pool, or before the store of `WAITING_FOR_LLM`. -/
  | queued (x : Session)
  /-- Before `factory_.create`. -/
  | create (x : Session)
  | running (w : WorkflowState)
  /-- The future of the task is ready. -/
  | finished (w : WorkflowState)
  deriving DecidableEq

inductive Label where
  /-- `cancel_session`. -/
  | cancel
  /-- The task itself takes a step. -/
  | task
  /-- The workflow takes a step. -/
  | work (a : Action)
  deriving DecidableEq

def State.session : State → Session
  | .queued x | .create x => x
  | .running w | .finished w => w.session

def State.isFinished : State → Bool
  | .finished _ => true
  | _ => false

/-- `cancel_requested.store(true)`. -/
def cancelRequest (x : Session) : Session := { x with cancelRequested := true }

def State.mapSession (f : Session → Session) : State → State
  | .queued x => .queued (f x)
  | .create x => .create (f x)
  | .running w => .running (w.mapSession f)
  | .finished w => .finished (w.mapSession f)

/-- The step function. -/
def next (parse : String → Option Json) (reg : ToolRegistry) (kind : WorkflowKind) :
    State → Label → Option State
  | s, .cancel => some (s.mapSession cancelRequest)
  | .queued x, .task => some (.create { x with state := .waitingForLlm })
  | .create x, .task => some (.running (.start kind x))
  | .running w, .task => if w.isOver then some (.finished w) else none
  | .running w, .work a => (w.next parse reg a).map .running
  | .finished w, .work a => (w.next parse reg a).map .finished
  | _, _ => none

/-- The task that was dispatched with `x`. -/
def system (parse : String → Option Json) (reg : ToolRegistry) (kind : WorkflowKind)
    (x : Session) : System State Label :=
  System.ofNext (.queued x) (next parse reg kind)

/-- The step raises an exception in the workflow. -/
def raises (reg : ToolRegistry) : State → Label → Bool
  | .running w, .work a | .finished w, .work a => w.raises reg a
  | _, _ => false

/-- An exception has been raised. -/
def Raised : State → Prop
  | .running w | .finished w => w.Raised
  | _ => False

/-- The session is as far as the task is. -/
def Inv : State → Prop
  | .queued x | .create x => x.state.terminal = false
  | .running w => w.Inv
  | .finished w => w.Inv ∧ w.isOver

variable {parse : String → Option Json} {reg : ToolRegistry} {kind : WorkflowKind}
  {s s' : State} {l : Label} {x : Session}

/-- What a step can do. -/
theorem step_cases (hi : Inv s) (hs : next parse reg kind s l = some s') :
    Inv s' ∧ (Raised s' ↔ Raised s ∨ raises reg s l) := by
  cases l with
  | cancel =>
    simp only [next, Option.some.injEq] at hs
    subst hs
    cases s with
    | queued x => exact ⟨hi, by simp [Raised, raises, State.mapSession]⟩
    | create x => exact ⟨hi, by simp [Raised, raises, State.mapSession]⟩
    | running w =>
      exact ⟨WorkflowState.Inv.mapSession (fun _ => rfl) hi,
        by simp [Raised, raises, State.mapSession, WorkflowState.raised_mapSession]⟩
    | finished w =>
      refine ⟨⟨WorkflowState.Inv.mapSession (fun _ => rfl) hi.1, ?_⟩, ?_⟩
      · rw [WorkflowState.isOver_mapSession]
        exact hi.2
      · simp [Raised, raises, State.mapSession, WorkflowState.raised_mapSession]
  | task =>
    cases s <;> simp only [next, Option.some.injEq, reduceCtorEq] at hs
    case queued x =>
      subst hs
      exact ⟨rfl, by simp [Raised, raises]⟩
    case create x =>
      subst hs
      exact ⟨WorkflowState.inv_start kind hi,
        by simp [Raised, raises, WorkflowState.not_raised_start]⟩
    case running w =>
      simp only [Option.ite_none_right_eq_some, Option.some.injEq] at hs
      obtain ⟨hover, rfl⟩ := hs
      exact ⟨⟨hi, hover⟩, by simp [Raised, raises]⟩
  | work a =>
    cases s <;> simp only [next, Option.map_eq_some_iff, reduceCtorEq] at hs
    case running w =>
      obtain ⟨w', hw, rfl⟩ := hs
      exact ⟨hi.step hw, WorkflowState.raised_step hi hw⟩
    case finished w =>
      obtain ⟨w', hw, rfl⟩ := hs
      exact ⟨⟨hi.1.step hw, WorkflowState.isOver_step hi.2 hw⟩, WorkflowState.raised_step hi.1 hw⟩

/-- Along every run the session is as far as the task is, and an exception
    has been raised unless no step raised one. -/
theorem run_spec {tr : List Label} (hx : x.state.terminal = false)
    (hrun : (system parse reg kind x).Run tr s) :
    Inv s ∧
      (((system parse reg kind x).restrict fun s l => !raises reg s l).Run tr s ↔ ¬Raised s) := by
  apply hrun.history_invariant (P := fun tr s => Inv s ∧
    (((system parse reg kind x).restrict fun s l => !raises reg s l).Run tr s ↔ ¬Raised s))
  · intro s hinit
    have hs : s = .queued x := hinit
    subst hs
    refine ⟨hx, ?_⟩
    simp only [Raised, not_false_eq_true, iff_true]
    exact .start rfl
  · intro tr s l s' hr hi hs
    obtain ⟨hinv, hraised⟩ := step_cases hi.1 hs
    have hdet : (system parse reg kind x).Deterministic := System.deterministic_ofNext _ _
    refine ⟨hinv, ?_⟩
    rw [hdet.restrict_snoc hr hs, hraised, hi.2, not_or]
    simp

theorem createSession_state {maxSessions id now : ℕ} {inserted : Bool}
    {req : CreateSessionRequest}
    (hcreate : createSession maxSessions inserted id now req = .ok (kind, x)) :
    x.state = .created := by
  unfold createSession at hcreate
  split at hcreate
  · cases hcreate
  · split at hcreate
    · cases hcreate
      rfl
    · cases hcreate

/-- **A finished task and its session.** When the task of a session that
    was created has finished, the session is in a terminal state if and
    only if no step of the run raised an exception. -/
theorem finished_terminal_iff {maxSessions id now : ℕ} {inserted : Bool}
    {req : CreateSessionRequest} {tr : List Label}
    (hcreate : createSession maxSessions inserted id now req = .ok (kind, x))
    (hrun : (system parse reg kind x).Run tr s) (hfinished : s.isFinished) :
    s.session.isTerminal ↔
      ((system parse reg kind x).restrict fun s l => !raises reg s l).Run tr s := by
  have hx : x.state.terminal = false := by
    rw [createSession_state hcreate]
    rfl
  obtain ⟨hi, hquiet⟩ := run_spec hx hrun
  rw [hquiet]
  cases s with
  | finished w => exact hi.1.terminal_iff hi.2
  | queued x | create x | running w => cases hfinished

/-! ### A Session that Ends, and One that Does Not -/

/-- A question for the ReAct workflow. -/
def question : CreateSessionRequest := { prompt := "2 + 2?" }

/-- The statements of `run` up to the call of the LLM. -/
def untilCall : List Label :=
  [.task, .task, .work (.main .tau), .work (.main .tau), .work (.main .tau), .work (.main (.now 1)),
    .work (.main .tau), .work (.main .tau), .work (.main .tau)]

/-- The LLM answers. -/
def answered : List Label :=
  untilCall ++
    [Label.work (.main (.reply { message := { role := "assistant", content := "4" } })),
      .work (.main .tau), .work (.main .tau), .work (.main .tau), .work (.main .tau), .task]

/-- The future of the LLM call holds an exception. -/
def unanswered : List Label := untilCall ++ [Label.work (.main .raise), .task]

theorem answered_terminal :
    ∃ s, (system (fun _ => none) ⟨[]⟩ .react (question.newSession 1 0)).Run answered s ∧
      s.isFinished ∧ s.session.isTerminal := by
  have hends : (System.exec (fun s l => if !raises ⟨[]⟩ s l then
      next (fun _ => none) ⟨[]⟩ .react s l else none) (.queued (question.newSession 1 0))
      answered).map State.isFinished = some true := by decide
  obtain ⟨s, hquiet, hends⟩ := System.exists_run_restrict_of_exec hends
  have hcreate : createSession 1 true 1 0 question = .ok (.react, question.newSession 1 0) := rfl
  exact ⟨s, hquiet.of_restrict, hends,
    (finished_terminal_iff hcreate hquiet.of_restrict hends).mpr hquiet⟩

/-- The task is over, its exception is in the promise, and the session
    waits for the LLM for ever. -/
theorem unanswered_not_terminal :
    ¬ ∀ (parse : String → Option Json) (reg : ToolRegistry) (maxSessions id now : ℕ)
      (inserted : Bool) (req : CreateSessionRequest) (kind : WorkflowKind) (x : Session),
      createSession maxSessions inserted id now req = .ok (kind, x) →
      ∀ (tr : List Label) (s : State), (system parse reg kind x).Run tr s →
      s.isFinished → s.session.isTerminal := by
  intro hall
  have hends : (System.exec (next (fun _ => none) ⟨[]⟩ .react) (.queued (question.newSession 1 0))
      unanswered).map (fun s => (s.isFinished, s.session.state)) = some (true, .waitingForLlm) := by
    decide
  obtain ⟨s, hrun, hends⟩ := System.exists_run_of_exec hends
  simp only [Prod.mk.injEq] at hends
  have hcreate : createSession 1 true 1 0 question = .ok (.react, question.newSession 1 0) := rfl
  have hterminal := hall _ _ 1 1 0 true question _ _ hcreate unanswered s hrun hends.1
  simp [Session.isTerminal, hends.2, SessionState.terminal] at hterminal

end SessionTask

end Forge
