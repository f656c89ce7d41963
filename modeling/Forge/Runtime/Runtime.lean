import Forge.Core.Semaphore
import Forge.Core.ThreadPool
import Forge.Workflow.ReAct

/-! # The Runtime — Model

  Sessions that run the ReAct workflow on one `ThreadPool`, with a
  `ThrottledLLMClient` over an `LLMClient` over an `AsyncHttpClient` on the
  same pool (`main.cpp` wires them so).

  The tasks on the pool are

  - one task per session, submitted from outside by `create_session`;
  - for every LLM call the task of the HTTP exchange (`AsyncHttpClient::post`)
    and the task that transforms its response (`LLMClient::complete`), both
    submitted by the session that makes the call;
  - the tools of a batch, submitted by the session (`execute_batch`).

  What the pool does is `ThreadPool.next`; this module says what its tasks
  do. A task that waits in `Future::get` or `wait_for` looks for other
  tasks through `try_process_one`; `Semaphore::acquire` does not.

  The rate limiter has tokens, every HTTP exchange returns normally, and a
  tool submits nothing to the pool. Setting the promise of a task and
  leaving the task is one step: the future of a task is ready when the
  task is finished.
-/

open LTS

namespace Forge.Runtime

/-- The tasks on the pool. A call or a batch is named by its number in its
    session. -/
inductive Task (ι : Type*) where
  | session (i : ι)
  | http (i : ι) (call : ℕ)
  | transform (i : ι) (call : ℕ)
  | tool (i : ι) (batch idx : ℕ)
  deriving DecidableEq

/-- What a session is doing. -/
inductive Phase where
  /-- A statement of `ReActWorkflow::run`. -/
  | react
  /-- `sem_.acquire()`; `iter` attempts have failed. -/
  | acquire (iter : ℕ) (pc : Semaphore.AcquirePC)
  /-- `http_.post(…)`. -/
  | post
  /-- `http_.pool().submit(…)`, the transform task. -/
  | submit
  /-- `inner_fut.then(…)`. -/
  | attach
  /-- The continuation in `then`: `sem_ptr->release()`. -/
  | release
  /-- The continuation in `then`: `p->set_value(…)`. -/
  | setResult
  /-- `llm_future.get()`. -/
  | get
  /-- `execute_batch`: launch the call with this index. -/
  | submitTools (calls : List ToolCall) (idx : ℕ)
  /-- `execute_batch`: the outcomes collected so far. -/
  | waitTools (calls : List ToolCall) (outcomes : List ToolOutcome)
  deriving DecidableEq

/-- `continuation_` of the inner future. -/
inductive Slot where
  | empty
  | attached
  /-- The value came first. -/
  | value
  deriving DecidableEq

/-- Where the transform task of the current call is. -/
inductive TransformPC where
  /-- Not started, or in `fut.get()`. -/
  | get
  /-- The continuation in `set_value`: `sem_ptr->release()`. -/
  | release
  /-- The continuation in `set_value`: `p->set_value(…)`. -/
  | setResult
  deriving DecidableEq

/-- One session and its current LLM call. -/
structure Agent where
  react : ReActWorkflow.State
  phase : Phase
  /-- LLM calls and tool batches that are over. -/
  calls : ℕ
  batches : ℕ
  slot : Slot
  transform : TransformPC
  /-- The future `ThrottledLLMClient::complete` returned is ready. -/
  ready : Bool
  deriving DecidableEq

variable {n : ℕ} {ι : Type*} [DecidableEq ι]

structure State (n : ℕ) (ι : Type*) where
  pool : ThreadPool.State n (Task ι)
  sem : Semaphore
  agents : ι → Agent

/-- What the surroundings contribute to a step of a task. -/
inductive Input where
  | tau
  /-- The compare-exchange of `try_acquire` fails spuriously. -/
  | weak
  /-- The clock reads `t`. -/
  | now (t : ℕ)
  /-- The LLM response. -/
  | reply (r : LLMResponse)
  /-- How a tool call has ended. -/
  | outcome (o : ToolOutcome)
  deriving DecidableEq

inductive Label (n : ℕ) (ι : Type*) where
  /-- `create_session` dispatches the task of session `i`. -/
  | submit (i : ι)
  /-- `cancel_session`. -/
  | cancel (i : ι)
  /-- A worker that is not inside a task, as in `ThreadPool.Label.worker`. -/
  | worker (w victim : Fin n) (lost : Bool)
  /-- The task on top of worker `w`'s stack takes a step. -/
  | step (w : Fin n) (input : Input)
  deriving DecidableEq

def State.setAgent (s : State n ι) (i : ι) (a : Agent) : State n ι :=
  { s with agents := Function.update s.agents i a }

/-- The pool takes a step. -/
def State.poolStep [NeZero n] (s : State n ι) (l : ThreadPool.Label n (Task ι)) :
    Option (State n ι) :=
  (ThreadPool.next s.pool l).map fun pool => { s with pool := pool }

/-- The future of a task is ready. -/
def State.isReady (s : State n ι) (t : Task ι) : Bool := t ∈ s.pool.finished

/-! ### Sessions -/

/-- The workflow takes a step of its own. -/
def Agent.reactStep (reg : ToolRegistry) (a : Agent) (l : Workflow.Label) : Option Agent :=
  (ReActWorkflow.next reg a.react l).map fun r => { a with react := r }

/-- `sem_.acquire()`. -/
def acquireStep (s : State n ι) (i : ι) (iter : ℕ) (pc : Semaphore.AcquirePC) (weak : Bool) :
    State n ι :=
  let a := s.agents i
  match s.sem.acquireStep weak pc with
  | (sem, none) => { s with sem := sem }.setAgent i { a with phase := .post }
  | (sem, some pc') =>
      { s with sem := sem }.setAgent i
        { a with phase := .acquire (if pc.fails then iter + 1 else iter) pc' }

/-- The step of session `i` on worker `w`. -/
def sessionStep [NeZero n] (reg : ToolRegistry) (s : State n ι) (w : Fin n) (i : ι)
    (input : Input) : Option (State n ι) :=
  let a := s.agents i
  match a.phase, input with
  | .react, input =>
      match a.react.pc, input with
      | .complete, .tau => some (s.setAgent i { a with phase := .acquire 0 .load })
      | .executeBatch calls, .tau => some (s.setAgent i { a with phase := .submitTools calls 0 })
      | .returned, .tau | .threw, .tau => s.poolStep (.task w .finish)
      | .complete, _ | .get, _ | .executeBatch _, _ => none
      | _, .tau => (a.reactStep reg .tau).map (s.setAgent i)
      | _, .now t => (a.reactStep reg (.now t)).map (s.setAgent i)
      | _, _ => none
  | .acquire iter pc, .tau => some (acquireStep s i iter pc false)
  | .acquire iter pc, .weak => some (acquireStep s i iter pc true)
  | .post, .tau =>
      (s.setAgent i { a with phase := .submit }).poolStep (.task w (.submit (.http i a.calls)))
  | .submit, .tau =>
      (s.setAgent i { a with phase := .attach }).poolStep
        (.task w (.submit (.transform i a.calls)))
  | .attach, .tau =>
      match a.slot with
      | .value => some (s.setAgent i { a with phase := .release })
      | _ =>
          (a.reactStep reg .tau).map fun a =>
            s.setAgent i { a with slot := .attached, phase := .get }
  | .release, .tau =>
      some ({ s with sem := s.sem.release.1 }.setAgent i { a with phase := .setResult })
  | .setResult, .tau =>
      (a.reactStep reg .tau).map fun a => s.setAgent i { a with ready := true, phase := .get }
  | .get, .tau => if a.ready then none else s.poolStep (.task w .wait)
  | .get, .reply r =>
      if a.ready then
        (a.reactStep reg (.reply r)).map fun a =>
          s.setAgent i { a with
            phase := .react
            calls := a.calls + 1
            slot := .empty
            transform := .get
            ready := false }
      else none
  | .submitTools calls idx, .tau =>
      match calls[idx]? with
      | some call =>
          let s' := s.setAgent i { a with phase := .submitTools calls (idx + 1) }
          if reg.has call.name then s'.poolStep (.task w (.submit (.tool i a.batches idx)))
          else some s'
      | none => some (s.setAgent i { a with phase := .waitTools calls [] })
  | .waitTools calls outcomes, input =>
      let collect (o : ToolOutcome) : State n ι :=
        s.setAgent i { a with phase := .waitTools calls (outcomes ++ [o]) }
      match calls[outcomes.length]?, input with
      | some call, input =>
          if reg.has call.name then
            let ready := s.isReady (.tool i a.batches outcomes.length)
            match input with
            | .outcome o => if ready = decide (o ≠ .timeout) then some (collect o) else none
            | .tau => if ready then none else s.poolStep (.task w .wait)
            | _ => none
          -- an unknown tool has no future, and its outcome is not looked at
          else if input = .tau then some (collect .timeout)
          else none
      | none, .tau =>
          (a.reactStep reg (.batch outcomes)).map fun a =>
            s.setAgent i { a with phase := .react, batches := a.batches + 1 }
      | none, _ => none
  | _, _ => none

/-! ### The Tasks of a Call -/

/-- The step of the transform task of session `i`'s call on worker `w`. -/
def transformStep [NeZero n] (s : State n ι) (w : Fin n) (i : ι) (call : ℕ) :
    Option (State n ι) :=
  let a := s.agents i
  match a.transform with
  | .get =>
      if s.isReady (.http i call) then
        match a.slot with
        | .attached => some (s.setAgent i { a with transform := .release })
        | _ => (s.setAgent i { a with slot := .value }).poolStep (.task w .finish)
      else s.poolStep (.task w .wait)
  | .release =>
      some ({ s with sem := s.sem.release.1 }.setAgent i { a with transform := .setResult })
  | .setResult => (s.setAgent i { a with ready := true }).poolStep (.task w .finish)

/-! ### The System -/

/-- The step of the task on top of worker `w`'s stack. -/
def taskStep [NeZero n] (reg : ToolRegistry) (s : State n ι) (w : Fin n) (t : Task ι)
    (input : Input) : Option (State n ι) :=
  match t with
  | .session i => sessionStep reg s w i input
  | .http _ _ | .tool _ _ _ => if input = .tau then s.poolStep (.task w .finish) else none
  | .transform i call => if input = .tau then transformStep s w i call else none

/-- The step function. -/
def next [NeZero n] (reg : ToolRegistry) (s : State n ι) : Label n ι → Option (State n ι)
  | .submit i => s.poolStep (.submit none (.session i))
  | .cancel i =>
      let a := s.agents i
      let x := { a.react.session with cancelRequested := true }
      some (s.setAgent i { a with react := { a.react with session := x } })
  | .worker w victim lost => s.poolStep (.worker w victim lost)
  | .step w input =>
      match (s.pool.workers w).stack with
      | .exec t :: _ => taskStep reg s w t input
      | _ => none

/-- Session `x`, not yet running. -/
def newAgent (x : Session) : Agent where
  react := ReActWorkflow.start x
  phase := .react
  calls := 0
  batches := 0
  slot := .empty
  transform := .get
  ready := false

/-- A pool of `n` workers, `k` permits, and the sessions `x`. -/
def initial (n : ℕ) (k : ℤ) (x : ι → Session) : State n ι where
  pool := ThreadPool.initial n (Task ι)
  sem := .new k
  agents := fun i => newAgent (x i)

def system (n : ℕ) [NeZero n] (k : ℤ) (reg : ToolRegistry) (x : ι → Session) :
    System (State n ι) (Label n ι) :=
  .ofNext (initial n k x) (next reg)

end Forge.Runtime
