import Forge.Core.Future
import Forge.Core.Semaphore
import Mathlib.Logic.Function.Basic

/-! # Throttled LLM Client — Model

  Any number of calls of `ThrottledLLMClient::complete`
  (`llm/throttled_llm_client.h`) on any number of clients that share one
  semaphore. A call is one element of an arbitrary type `ι`.

  A call goes through the rate limiter, acquires a permit, delegates to
  the inner client, attaches the continuation that releases the permit
  and resolves the outer promise, and returns the outer future.

  - The inner future and the outer one are shared states of
    `Forge.Future`, stepped by its `next`.
  - The inner client is the environment: it may throw out of `complete`,
    or resolve its promise with a value or an exception at any time after
    it was called, also before it has returned.
  - The continuation runs on whichever side calls it: inside the inner
    `set_value`, or inside `then`. It ends when the outer `set_value` does.
  - The rate limiter only delays a call: `rate_.acquire(1)` is one step
    that may be taken at any time.
  - The references to the two shared states are not dropped here.
-/

open LTS

namespace Forge.ThrottledLLMClient

/-- Where a call of `complete` is. -/
inductive CallerPC where
  | idle
  /-- `rate_.acquire(1)`. -/
  | rateAcquire
  /-- `sem_.acquire()`. -/
  | semAcquire (pc : Semaphore.AcquirePC)
  /-- Inside `inner_.complete(messages, tools)`. -/
  | innerComplete
  /-- `catch (...)`: `sem_.release()`. -/
  | releaseRethrow
  /-- `complete` was left by the exception of the inner `complete`. -/
  | rethrown
  /-- Before `inner_fut.then(...)`. -/
  | attach
  /-- Inside `inner_fut.then(...)`. -/
  | inThen
  /-- `complete` has returned the outer future. -/
  | returned
  /-- `complete` was left by an exception out of `then`. -/
  | thenThrew
  deriving DecidableEq

/-- Where the continuation given to `then` is; `side` is who called it
    and `resp` its argument. -/
inductive ContinuationPC (R : Type*) where
  | notRun
  /-- `sem_ptr->release()`. -/
  | release (side : Future.Side) (resp : Option R)
  /-- `p->set_value(std::move(resp))`. -/
  | setValue (side : Future.Side) (resp : Option R)
  /-- Inside the outer `set_value`. -/
  | inSetValue (side : Future.Side)
  | finished
  deriving DecidableEq

/-! ### One Call -/

/-- One call of `complete` with its two futures. -/
structure Call (R E : Type*) where
  caller : CallerPC
  inner : Future.State R E
  continuation : ContinuationPC R
  outer : Future.State R E

/-- The steps of a call that do not touch the semaphore. -/
inductive LocalLabel (R E : Type*) where
  | call
  | rateAcquired
  | innerReturn
  | innerThrow
  | callThen
  /-- A step of `then` on the inner future. -/
  | thenStep
  | thenEnds
  /-- A step of the inner client on the inner promise. -/
  | resolve (l : Future.Label R E)
  | callSetValue
  /-- A step of `set_value` on the outer promise. -/
  | setValueStep (l : Future.Label R E)
  | continuationEnds
  /-- A step of the caller of `complete` on the outer future. -/
  | user (l : Future.Label R E)
  deriving DecidableEq

/-- The labels of the side that resolves a promise. -/
def isResolve {R E : Type*} : Future.Label R E → Bool
  | .callSetValue _ | .callSetException _ | .producer => true
  | _ => false

/-- The labels of a `set_value` under way, with the continuation it may call. -/
def isSetValue {R E : Type*} : Future.Label R E → Bool
  | .producer | .callbackReturn .producer | .callbackThrow .producer => true
  | _ => false

/-- The labels of the side that holds a future. -/
def isUser {R E : Type*} : Future.Label R E → Bool
  | .callThen | .consumer | .callbackReturn .consumer | .callbackThrow .consumer => true
  | _ => false

variable {R E : Type*}

/-- The side whose next step calls the continuation, if `l` is that step. -/
def invokes (s : Future.State R E) : Future.Label R E → Option Future.Side
  | .producer => match s.producer with
    | .svInvoke _ => some .producer
    | _ => none
  | .consumer => match s.consumer with
    | .thInvoke => some .consumer
    | _ => none
  | _ => none

/-- The inner `complete` was called and has not thrown. -/
def CallerPC.started : CallerPC → Bool
  | .innerComplete | .attach | .inThen | .returned | .thenThrew => true
  | _ => false

def newCall : Call R E where
  caller := .idle
  inner := Future.initial .primary
  continuation := .notRun
  outer := Future.initial .primary

variable [DecidableEq R] [DecidableEq E]

/-- A step on the inner shared state, which may start the continuation. -/
def stepInner (c : Call R E) (l : Future.Label R E) : Option (Call R E) :=
  (Future.next .primary c.inner l).map fun inner =>
    { c with
      inner := inner
      continuation := match invokes c.inner l with
        | some side => .release side c.inner.value
        | none => c.continuation }

/-- A step on the outer shared state. -/
def stepOuter (c : Call R E) (l : Future.Label R E) : Option (Call R E) :=
  (Future.next .primary c.outer l).map fun outer => { c with outer := outer }

/-- The steps of one call that do not touch the semaphore. -/
def localNext (c : Call R E) : LocalLabel R E → Option (Call R E)
  | .call =>
      if c.caller = .idle then some { c with caller := .rateAcquire } else none
  | .rateAcquired =>
      if c.caller = .rateAcquire then some { c with caller := .semAcquire .load } else none
  | .innerReturn =>
      if c.caller = .innerComplete then some { c with caller := .attach } else none
  | .innerThrow =>
      if c.caller = .innerComplete then some { c with caller := .releaseRethrow } else none
  | .callThen =>
      if c.caller = .attach then
        (stepInner c .callThen).map fun c => { c with caller := .inThen }
      else none
  | .thenStep =>
      if c.caller = .inThen then stepInner c .consumer else none
  | .thenEnds =>
      if c.caller = .inThen then
        match c.inner.consumer with
        | .thDone => some { c with caller := .returned }
        | .thThrew => some { c with caller := .thenThrew }
        | _ => none
      else none
  | .resolve l =>
      if c.caller.started ∧ isResolve l then stepInner c l else none
  | .callSetValue =>
      match c.continuation with
      | .setValue side (some resp) =>
          (stepOuter c (.callSetValue resp)).map fun c =>
            { c with continuation := .inSetValue side }
      | _ => none
  | .setValueStep l =>
      match c.continuation with
      | .inSetValue _ => if isSetValue l then stepOuter c l else none
      | _ => none
  | .continuationEnds =>
      match c.continuation with
      | .inSetValue side =>
          match c.outer.producer with
          | .svDone _ =>
              (stepInner c (.callbackReturn side)).map fun c =>
                { c with continuation := .finished }
          | .svThrew _ =>
              -- a continuation of the outer future threw through `set_value`
              (stepInner c (.callbackThrow side)).map fun c =>
                { c with continuation := .finished }
          | _ => none
      | _ => none
  | .user l =>
      if c.caller = .returned ∧ isUser l then stepOuter c l else none

/-! ### The System -/

/-- The semaphore and all calls. -/
structure State (ι R E : Type*) where
  sem : Semaphore
  /-- The assertion in `Semaphore::release` has failed. -/
  assertFailed : Bool
  calls : ι → Call R E

inductive Label (ι R E : Type*) where
  | step (i : ι) (l : LocalLabel R E)
  /-- A step of `sem_.acquire()`; `weak` is a spurious failure. -/
  | acquire (i : ι) (weak : Bool)
  /-- `release()`, by the `catch` or by the continuation. -/
  | release (i : ι)
  deriving DecidableEq

variable {ι : Type*} [DecidableEq ι]

def State.setCall (s : State ι R E) (i : ι) (c : Call R E) : State ι R E :=
  { s with calls := Function.update s.calls i c }

/-- The call after it has released its permit; `none` if the call is not there. -/
def released (c : Call R E) : Option (Call R E) :=
  match c.caller, c.continuation with
  | .releaseRethrow, _ => some { c with caller := .rethrown }
  | _, .release side resp => some { c with continuation := .setValue side resp }
  | _, _ => none

/-- The step function. -/
def next (s : State ι R E) : Label ι R E → Option (State ι R E)
  | .step i l => (localNext (s.calls i) l).map (s.setCall i)
  | .acquire i weak =>
      match (s.calls i).caller with
      | .semAcquire pc =>
          match s.sem.acquireStep weak pc with
          | (sem, none) =>
              some ({ s with sem := sem }.setCall i { s.calls i with caller := .innerComplete })
          | (sem, some pc) =>
              some ({ s with sem := sem }.setCall i { s.calls i with caller := .semAcquire pc })
      | _ => none
  | .release i =>
      (released (s.calls i)).map fun c =>
        { s with
          sem := s.sem.release.1
          assertFailed := s.assertFailed || !s.sem.release.2 }.setCall i c

def initial (ι R E : Type*) (maxPermits : ℤ) : State ι R E where
  sem := .new maxPermits
  assertFailed := false
  calls := fun _ => newCall

/-- All calls that share a semaphore of `maxPermits` permits. -/
def system (ι R E : Type*) [DecidableEq ι] [DecidableEq R] [DecidableEq E] (maxPermits : ℤ) :
    System (State ι R E) (Label ι R E) :=
  .ofNext (initial ι R E maxPermits) next

end Forge.ThrottledLLMClient
