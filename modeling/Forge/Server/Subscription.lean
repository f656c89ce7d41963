import Forge.Session.SessionManagerInvariant

/-! # Subscriptions

  `HttpServer::handle_subscribe` (`server/http_server.cpp`). A client asks
  for the events of a session. The session is looked up once, and then the
  HTTP library calls a content provider: it polls the session and writes an
  event if something has changed, until it has seen the session end. The
  handler and the provider run in thread `t`; all the other threads, and
  the tasks of the sessions, work on the manager at the same time.

  - The library calls the provider again only after it has returned true
    and has not called `done`, and tells it whether a write was successful.
  - The text of an event is its name and the dump of its data.
  - `polled` and `held` are read by no step: what the provider has got from
    `get_session`, and the session after every step of the manager.
-/

namespace Forge

open LTS

/-- `session_state_name` -/
def SessionState.name : SessionState → String
  | .created => "created"
  | .waitingForLlm => "waiting_for_llm"
  | .executingTools => "executing_tools"
  | .waitingForHuman => "waiting_for_human"
  | .completed => "completed"
  | .failed => "failed"
  | .cancelled => "cancelled"

namespace Subscription

open SessionManager (SessionInfo Params)

/-! ### Events -/

inductive Event where
  | state (i : SessionInfo)
  | done
  | error
  deriving DecidableEq

def Event.name : Event → String
  | .state _ => "state"
  | .done => "done"
  | .error => "error"

/-- The answer and the error are left out when they are empty. -/
def Event.data : Event → Json
  | .state i => .object
      ([("id", .int i.id), ("state", .string i.state.name), ("step_count", .int i.stepCount)] ++
        (if i.finalAnswer ≠ "" then [("answer", .string i.finalAnswer)] else []) ++
        (if i.error ≠ "" then [("error", .string i.error)] else []))
  | .done => .object []
  | .error => .object [("error", .string "Session not found")]

/-! ### State -/

/-- Where the handler or the provider is. -/
inductive PC where
  | idle
  /-- `handle_subscribe`: the first `get_session`. -/
  | verify
  /-- Answered with an error. -/
  | refused (status : ℕ) (error : String)
  /-- The provider has returned `again`, or has been set up. -/
  | yielded (again : Bool)
  /-- The provider: `get_session`. -/
  | poll
  | writeError
  /-- Something has changed: `*last_state` and `*last_step` are set. -/
  | writeState (i : SessionInfo)
  | writeDone
  | sleep
  deriving DecidableEq

/-- The provider and its sink. -/
structure Provider where
  pc : PC
  lastState : SessionState
  lastStep : ℕ
  /-- `sink.done()` has been called. -/
  isDone : Bool
  /-- The events written to the client. -/
  events : List Event
  polled : List SessionInfo
  deriving DecidableEq

variable (P : Params)

structure State extends Provider where
  manager : SessionManager.State P
  held : List Session

def initial : State P where
  pc := .idle
  lastState := .created
  lastStep := 0
  isDone := false
  events := []
  polled := []
  manager := SessionManager.initial P
  held := []

inductive Label where
  /-- Another thread or a task takes a step. -/
  | manager (l : SessionManager.Label)
  /-- The handler or the provider does; `written` is what its `write`
      returns. -/
  | serve (written : Bool)
  deriving DecidableEq

variable {P}

/-- The manager has come to `m`. -/
def State.advance (id : ℕ) (s : State P) (m : SessionManager.State P) : State P :=
  { s with
    manager := m
    held := s.held ++ ((m.objects id).map SessionManager.Object.session).toList }

def Provider.emit (s : Provider) (e : Event) (written : Bool) : Provider :=
  if written then { s with events := s.events ++ [e] } else s

/-! ### Steps -/

/-- A step of thread `t` in `get_session`, or what that has returned. -/
def getStep (t : ℕ) (m : SessionManager.State P) :
    Option (SessionManager.State P × Option (Option SessionInfo)) :=
  match m.calls t with
  | .returned (.info i) => (SessionManager.next m (.ret t)).map fun m' => (m', some i)
  | _ => (SessionManager.next m (.step t)).map fun m' => (m', none)

/-- Verify session exists. -/
def Provider.verified (s : Provider) : Option (Option SessionInfo) → Provider
  | none => s
  | some none => { s with pc := .refused 404 "Session not found" }
  | some (some _) => { s with pc := .yielded true }

/-- The provider, when it has polled the session. -/
def Provider.observed (s : Provider) : Option (Option SessionInfo) → Provider
  | none => s
  | some none => { s with pc := .writeError }
  | some (some i) =>
      if i.state ≠ s.lastState ∨ i.stepCount ≠ s.lastStep then
        { s with
          polled := s.polled ++ [i]
          lastState := i.state
          lastStep := i.stepCount
          pc := .writeState i }
      else { s with polled := s.polled ++ [i], pc := .sleep }

/-- What the provider does with its sink. -/
def Provider.write (s : Provider) (written : Bool) : Option Provider :=
  match s.pc with
  | .writeError => some { s.emit .error written with pc := .yielded false, isDone := true }
  | .writeState i =>
      -- the client may have disconnected
      if written then
        some { s.emit (.state i) written with
          pc := if i.state.terminal then .writeDone else .sleep }
      else some { s with pc := .yielded false }
  | .writeDone => some { s.emit .done written with pc := .yielded false, isDone := true }
  | .sleep => some { s with pc := .yielded true }
  | _ => none

/-- The next step of the handler or the provider. -/
def serve (t id : ℕ) (s : State P) (written : Bool) : Option (State P) :=
  match s.pc with
  | .idle =>
      -- `std::stoull` throws on what is no `uint64_t`
      if 2 ^ 64 ≤ id then some { s with pc := .refused 400 "Invalid session ID" }
      else (SessionManager.next s.manager (.call t (.get id))).map fun m =>
        { s.advance id m with pc := .verify }
  | .verify => (getStep t s.manager).map fun (m, r) =>
      { s.advance id m with toProvider := s.verified r }
  | .yielded again =>
      if again ∧ ¬s.isDone then
        (SessionManager.next s.manager (.call t (.get id))).map fun m =>
          { s.advance id m with pc := .poll }
      else none
  | .poll => (getStep t s.manager).map fun (m, r) =>
      { s.advance id m with toProvider := s.observed r }
  | _ => (s.write written).map fun p => { s with toProvider := p }

/-- The step function. -/
def next (t id : ℕ) (s : State P) : Label → Option (State P)
  | .manager l =>
      if l.thread = some t then none else (SessionManager.next s.manager l).map (s.advance id)
  | .serve written => serve t id s written

/-- A client asks for the events of session `id`. -/
def system (P : Params) (t id : ℕ) : System (State P) Label := System.ofNext (initial P) (next t id)

end Subscription

end Forge
