import Forge.Framework.System
import Mathlib.Data.Fin.Basic
import Mathlib.Logic.Function.Basic
import Mathlib.Tactic.Common

/-! # Thread Pool — Model

  One `ThreadPool` (`core/thread_pool.h`, `core/thread_pool.cpp`) with
  `n` workers. The submission queues and the deques are atomic queues.

  - Every worker has the `worker_loop` at the bottom of its stack and, on
    top of it, the tasks it is running and the `try_process_one` it is
    in. A task that waits in `Future::get` or `wait_for` runs other tasks
    on top of itself.
  - A running task is free to `submit`, to `submit_local`, to wait or to
    finish; when it finishes, the wrapper has satisfied its promise.
  - `submit` from elsewhere comes with the `t_worker_id` of its thread:
    `none` on a thread that is no worker (`-1`), and the id of the worker
    on a worker thread of another pool.
  - `~ThreadPool` runs on a thread that is no worker.

  A new task is a new object: it has not been submitted before. The idle
  wait of a worker (`epoch_`, sleeping) has no effect on the rest and is
  one step. A `steal` may also fail when the deque is not empty, as the
  compare-exchange of a thief may.
-/

open LTS

namespace Forge.ThreadPool

/-- Where `worker_loop` is, or where it goes on when the stack above it is
    empty. -/
inductive LoopPC where
  /-- `++tick % 64`. -/
  | top
  /-- 0. Poll the submission queue. -/
  | poll
  /-- 1. Own deque. -/
  | ownDeque
  /-- 2. Own submission queue. -/
  | ownQueue
  /-- 3. Steal; `attempts` so far. -/
  | steal (attempts : ℕ)
  /-- 5. Load `stop_`. -/
  | checkStop
  /-- 6. Idle. -/
  | idle
  /-- Drain the own deque before exiting. -/
  | drainDeque
  /-- Drain the own submission queue. -/
  | drainQueue
  | exited
  deriving DecidableEq

/-- Where `try_process_one` is. -/
inductive TryPC where
  | ownDeque
  | ownQueue
  /-- The next peer to steal from. -/
  | steal (i : ℕ)
  deriving DecidableEq

/-- A frame of a worker's stack above `worker_loop`. -/
inductive Frame (T : Type*) where
  | exec (t : T)
  | tryOne (pc : TryPC)
  deriving DecidableEq

/-- One worker thread. -/
structure Worker (T : Type*) where
  loop : LoopPC
  tick : ℕ
  /-- Topmost first. -/
  stack : List (Frame T)
  deriving DecidableEq

/-- Where `~ThreadPool` is. -/
inductive DestructorPC where
  | notCalled
  /-- `t.join()` for worker `i`. -/
  | join (i : ℕ)
  /-- Drain deque `i`. -/
  | drainDeque (i : ℕ)
  /-- Drain submission queue `i`. -/
  | drainQueue (i : ℕ)
  | returned
  deriving DecidableEq

/-! ### State -/

/-- One pool. -/
structure State (n : ℕ) (T : Type*) where
  stop : Bool
  nextWorker : ℕ
  /-- Oldest task first. -/
  queues : Fin n → List T
  /-- From top to bottom: the owner works at the end, thieves at the front. -/
  deques : Fin n → List T
  workers : Fin n → Worker T
  destructor : DestructorPC
  /-- The task `~ThreadPool` is running. -/
  draining : Option T
  /-- All tasks ever submitted, started and finished. -/
  submitted : List T
  started : List T
  finished : List T

/-- What a running task does next. -/
inductive Action (T : Type*) where
  | submit (t : T)
  | submitLocal (t : T)
  /-- `Future::get` or `wait_for` on a future that is not ready. -/
  | wait
  /-- The wrapper `submit` has put around the callable returns. It has
      stored the result or the exception: the future is ready. -/
  | finish
  deriving DecidableEq

inductive Label (n : ℕ) (T : Type*) where
  /-- `submit` from outside, on a thread with this `t_worker_id`. -/
  | submit (id : Option ℕ) (t : T)
  /-- The next step of a worker that is not inside a task. A thief picks
      `victim`; `lost` makes its `steal` fail. -/
  | worker (w : Fin n) (victim : Fin n) (lost : Bool)
  /-- The task on top of a worker's stack acts. -/
  | task (w : Fin n) (a : Action T)
  /-- `~ThreadPool` is called. -/
  | destroy
  /-- The next step of `~ThreadPool`. -/
  | destructor
  /-- The task `~ThreadPool` is running acts. -/
  | drained (a : Action T)
  deriving DecidableEq

variable {n : ℕ} {T : Type*}

def initial (n : ℕ) (T : Type*) : State n T where
  stop := false
  nextWorker := 0
  queues := fun _ => []
  deques := fun _ => []
  workers := fun _ => ⟨.top, 0, []⟩
  destructor := .notCalled
  draining := none
  submitted := []
  started := []
  finished := []

/-! ### Taking a Task -/

/-- Where a task is taken from. -/
inductive Source (n : ℕ) where
  /-- `submission_queues_[i]->pop()`. -/
  | queue (i : Fin n)
  /-- `deques_[i]->pop()`. -/
  | pop (i : Fin n)
  /-- `deques_[i]->steal()`. -/
  | steal (i : Fin n)
  deriving DecidableEq

/-- Take a task out of a queue. -/
def State.fetch (s : State n T) : Source n → Option (T × State n T)
  | .queue i =>
      match s.queues i with
      | [] => none
      | t :: rest => some (t, { s with queues := Function.update s.queues i rest })
  | .pop i =>
      match (s.deques i).getLast? with
      | none => none
      | some t =>
          some (t, { s with deques := Function.update s.deques i (s.deques i).dropLast })
  | .steal i =>
      match s.deques i with
      | [] => none
      | t :: rest => some (t, { s with deques := Function.update s.deques i rest })

def State.setWorker (s : State n T) (w : Fin n) (wk : Worker T) : State n T :=
  { s with workers := Function.update s.workers w wk }

/-- Worker `w` looks for a task in `src`: it goes on as `hit t` with the
    task it has found there, else as `miss`. -/
def State.take (s : State n T) (w : Fin n) (src : Source n) (hit : T → Worker T)
    (miss : Worker T) : State n T :=
  match s.fetch src with
  | some (t, s') => { s' with started := s.started ++ [t] }.setWorker w (hit t)
  | none => s.setWorker w miss

/-! ### Worker Loop -/

/-- The next step of `worker_loop`. -/
def loopStep (s : State n T) (w victim : Fin n) (lost : Bool) : Option (State n T) :=
  let wk := s.workers w
  -- run the task just taken, then go on at `pc`
  let run (pc : LoopPC) (t : T) : Worker T := { wk with loop := pc, stack := [.exec t] }
  let goto (pc : LoopPC) : Worker T := { wk with loop := pc }
  match wk.loop with
  | .top =>
      let tick := (wk.tick + 1) % 2 ^ 32
      some (s.setWorker w { wk with
        tick := tick
        loop := if tick % 64 = 0 then .poll else .ownDeque })
  | .poll => some (s.take w (.queue w) (run .top) (goto .ownDeque))
  | .ownDeque => some (s.take w (.pop w) (run .top) (goto .ownQueue))
  | .ownQueue => some (s.take w (.queue w) (run .top) (goto (.steal 0)))
  | .steal attempts =>
      if attempts < n * 2 % 2 ^ 32 then
        if victim ≠ w ∧ lost = false then
          some (s.take w (.steal victim) (run .top) (goto (.steal (attempts + 1))))
        else
          some (s.setWorker w (goto (.steal (attempts + 1))))
      else some (s.setWorker w (goto .checkStop))
  | .checkStop => some (s.setWorker w (goto (if s.stop then .drainDeque else .idle)))
  | .idle => some (s.setWorker w (goto .top))
  | .drainDeque => some (s.take w (.pop w) (run .drainDeque) (goto .drainQueue))
  | .drainQueue => some (s.take w (.queue w) (run .drainQueue) (goto .exited))
  | .exited => none

/-- The next step of `try_process_one`; `rest` is the stack below it. -/
def tryStep (s : State n T) (w : Fin n) (lost : Bool) (rest : List (Frame T)) :
    TryPC → State n T :=
  let wk := s.workers w
  let run (t : T) : Worker T := { wk with stack := .exec t :: rest }
  let goto (pc : TryPC) : Worker T := { wk with stack := .tryOne pc :: rest }
  fun
  | .ownDeque => s.take w (.pop w) run (goto .ownQueue)
  | .ownQueue => s.take w (.queue w) run (goto (.steal 0))
  | .steal i =>
      if h : i < n then
        if i ≠ w ∧ lost = false then s.take w (.steal ⟨i, h⟩) run (goto (.steal (i + 1)))
        else s.setWorker w (goto (.steal (i + 1)))
      else s.setWorker w { wk with stack := rest }

/-- The next step of a worker that is not inside a task. -/
def workerStep (s : State n T) (w victim : Fin n) (lost : Bool) : Option (State n T) :=
  match (s.workers w).stack with
  | [] => loopStep s w victim lost
  | .tryOne pc :: rest => some (tryStep s w lost rest pc)
  | .exec _ :: _ => none

/-! ### Submitting -/

/-- `deques_[i]->push(task)`. -/
def State.pushDeque (s : State n T) (i : Fin n) (t : T) : State n T :=
  { s with
    deques := Function.update s.deques i (s.deques i ++ [t])
    submitted := s.submitted ++ [t] }

/-- `submission_queues_[next_worker_++ % num_threads_]->push(task)`. -/
def State.pushQueue [NeZero n] (s : State n T) (t : T) : State n T :=
  let idx : Fin n := Fin.ofNat n s.nextWorker
  { s with
    nextWorker := (s.nextWorker + 1) % 2 ^ 32
    queues := Function.update s.queues idx (s.queues idx ++ [t])
    submitted := s.submitted ++ [t] }

/-- The routing in `submit`, on a thread with this `t_worker_id`. -/
def State.submit [NeZero n] (s : State n T) (id : Option ℕ) (t : T) : State n T :=
  match id with
  | none => s.pushQueue t
  | some i => if h : i < n then s.pushDeque ⟨i, h⟩ t else s.pushQueue t

/-- What the task on top of worker `w`'s stack does; `rest` is the stack
    below it. -/
def taskStep [NeZero n] [DecidableEq T] (s : State n T) (w : Fin n) (t : T)
    (rest : List (Frame T)) : Action T → Option (State n T)
  | .submit t' => if t' ∉ s.submitted then some (s.submit (some w) t') else none
  | .submitLocal t' => if t' ∉ s.submitted then some (s.pushDeque w t') else none
  | .wait =>
      some (s.setWorker w { s.workers w with stack := .tryOne .ownDeque :: .exec t :: rest })
  | .finish =>
      some { s.setWorker w { s.workers w with stack := rest } with
        finished := s.finished ++ [t] }

/-! ### Destructor -/

/-- `~ThreadPool` looks for a task in `src` and runs it, else goes on at `pc`. -/
def State.drain (s : State n T) (src : Source n) (pc : DestructorPC) : State n T :=
  match s.fetch src with
  | some (t, s') => { s' with draining := some t, started := s.started ++ [t] }
  | none => { s with destructor := pc }

/-- The next step of `~ThreadPool`. -/
def destructorStep (s : State n T) : Option (State n T) :=
  match s.draining, s.destructor with
  | none, .join i =>
      if h : i < n then
        if (s.workers ⟨i, h⟩).loop = .exited then some { s with destructor := .join (i + 1) }
        else none
      else some { s with destructor := .drainDeque 0 }
  | none, .drainDeque i =>
      if h : i < n then some (s.drain (.pop ⟨i, h⟩) (.drainDeque (i + 1)))
      else some { s with destructor := .drainQueue 0 }
  | none, .drainQueue i =>
      if h : i < n then some (s.drain (.queue ⟨i, h⟩) (.drainQueue (i + 1)))
      else some { s with destructor := .returned }
  | _, _ => none

/-- What the task that `~ThreadPool` runs does. Its thread is no worker:
    `submit` goes round robin, `submit_local` is not allowed, and waiting
    runs no other task. -/
def drainedStep [NeZero n] [DecidableEq T] (s : State n T) (t : T) :
    Action T → Option (State n T)
  | .submit t' => if t' ∉ s.submitted then some (s.submit none t') else none
  | .finish => some { s with draining := none, finished := s.finished ++ [t] }
  | .submitLocal _ | .wait => none

/-- The step function. -/
def next [NeZero n] [DecidableEq T] (s : State n T) : Label n T → Option (State n T)
  | .submit id t =>
      if s.destructor ≠ .returned ∧ t ∉ s.submitted then some (s.submit id t) else none
  | .worker w victim lost => workerStep s w victim lost
  | .task w a =>
      match (s.workers w).stack with
      | .exec t :: rest => taskStep s w t rest a
      | _ => none
  | .destroy =>
      if s.destructor = .notCalled then some { s with stop := true, destructor := .join 0 }
      else none
  | .destructor => destructorStep s
  | .drained a =>
      match s.draining with
      | some t => drainedStep s t a
      | none => none

/-- A pool of `n` workers and its users. -/
def system (n : ℕ) (T : Type*) [NeZero n] [DecidableEq T] : System (State n T) (Label n T) :=
  .ofNext (initial n T) next

end Forge.ThreadPool
