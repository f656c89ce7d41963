import Forge.Server.Subscription
import Forge.Session.SessionManagerInvariant
import Forge.Utils.Config

/-! # HTTP Server — Model

  The request handlers of `HttpServer` (`server/http_server.cpp`). The HTTP
  library runs every request in a worker thread of its own; the handlers
  call the session manager while the tasks of the sessions run and other
  threads, such as the one that collects sessions, call it as well.

  - A handler that throws answers 400 with the text of the exception,
    `Params.what`.
  - `list_sessions` and `active_count` look at one stripe of the map in
    each step, as `keys()` and `size()` do.
  - The body of a response is the value its text is the dump of.
  - `exchanges` records the responses. `Exchange.before` is how many there
    were when the request came, and `Exchange.removed` are the sessions
    that were gone when its response was sent.
  - `handle_subscribe` is in `Server/Subscription.lean`; `handle_metrics`
    is left out.
-/

namespace Forge

open LTS

namespace HttpServer

open SessionManager (SessionInfo Result numStripes)

/-- `what` is the text of the exception for a body or an id. -/
structure Params extends SessionManager.Params where
  what : String → String

/-! ### Routes -/

inductive HttpMethod where
  | get
  | post
  | delete
  deriving DecidableEq

/-- The handlers, with what they take from the request. -/
inductive Endpoint where
  /-- `handle_create_session` -/
  | create (body : String)
  /-- `handle_list_sessions` -/
  | list
  /-- `handle_get_session`, with the text of `(\d+)`. -/
  | session (digits : String)
  /-- `handle_delete_session` -/
  | cancel (digits : String)
  /-- `handle_health` -/
  | health
  deriving DecidableEq

/-- The text that `/api/sessions/(\d+)` matches in a path. -/
def sessionDigits (path : String) : Option String :=
  let base := "/api/sessions/".toList
  let digits := path.toList.drop base.length
  if base <+: path.toList ∧ digits ≠ [] ∧ digits.all Char.isDigit then some (.ofList digits)
  else none

/-- `setup_routes` -/
def route (method : HttpMethod) (path body : String) : Option Endpoint :=
  match method with
  | .post => if path = "/api/sessions" then some (.create body) else none
  | .get =>
      if path = "/api/sessions" then some .list
      else if path = "/health" then some .health
      else (sessionDigits path).map .session
  | .delete => (sessionDigits path).map .cancel

/-! ### Requests and Responses -/

/-- `std::stoull` of digits, which throws on what is no `uint64_t`. -/
def stoull (digits : String) : Option ℕ :=
  let n := Nat.ofDigitChars 10 digits.toList 0
  if n < 2 ^ 64 then some n else none

/-- The fields of the body: `none` when one of them throws, `some none`
    when there is no prompt. -/
def readRequest (j : Json) : Option (Option CreateSessionRequest) := do
  let prompt ← j.value Json.getString "prompt" ""
  if prompt = "" then
    some none
  else
    let systemMessage ← j.value Json.getString "system_message" "You are a helpful assistant."
    let workflow ← j.value Json.getString "workflow" "react"
    let tools ← match j.field? "tools" with
      | some (.array xs) => xs.mapM Json.getString
      | _ => some []
    let maxIterations ← j.read (Json.getUnsigned 32) "max_iterations" 15
    let timeout ← j.read (Json.getUnsigned 32) "timeout_seconds" 300
    some (some { prompt, systemMessage, workflow, tools, config := { maxIterations, timeout } })

/-- The status and the body of a response. -/
structure Response where
  status : ℕ
  body : Json

def errorResponse (status : ℕ) (text : String) : Response :=
  ⟨status, .object [("error", .string text)]⟩

/-- What `create_session` has returned. -/
def createdResponse (id : ℕ) : Response := ⟨201, .object [("id", .int id)]⟩

def sessionResponse (i : SessionInfo) : Response :=
  ⟨200, .object [("id", .int i.id), ("state", .string i.state.name),
    ("step_count", .int i.stepCount), ("answer", .string i.finalAnswer),
    ("error", .string i.error)]⟩

/-- An entry of the list. -/
def listEntry (i : SessionInfo) : Json :=
  .object [("id", .int i.id), ("state", .string i.state.name), ("step_count", .int i.stepCount)]

def listResponse (sessions : List SessionInfo) : Response :=
  ⟨200, .object [("sessions", .array (sessions.map listEntry))]⟩

def healthResponse (active : ℕ) : Response :=
  ⟨200, .object [("status", .string "ok"), ("active_sessions", .int active)]⟩

/-- The answer to what the manager's function has returned. -/
def respond : Endpoint → Result → Option Response
  | .create _, .created id => some (createdResponse id)
  | .create _, .refused error => some (errorResponse 503 error)
  | .session _, .info none => some (errorResponse 404 "Session not found")
  | .session _, .info (some i) => some (sessionResponse i)
  | .cancel _, .cancelled false => some (errorResponse 404 "Session not found")
  | .cancel _, .cancelled true => some ⟨200, .object [("cancelled", .bool true)]⟩
  | _, _ => none

/-! ### State -/

/-- Where a handler is. The arguments are its local variables. -/
inductive Work where
  | start
  /-- In the one function of the manager it calls. -/
  | inCall
  /-- `list_sessions()`, at stripe `j`. -/
  | keys (j : ℕ) (found : List ℕ)
  /-- `handle_list_sessions`: the next id. -/
  | describe (rest : List ℕ) (sessions : List SessionInfo)
  /-- In `get_session` of an id, with the rest to come. -/
  | inDescribe (rest : List ℕ) (sessions : List SessionInfo)
  /-- `active_count()`, at stripe `j`. -/
  | count (j total : ℕ)
  | answer (r : Response)

/-- What a worker thread does. -/
inductive Handler where
  | idle
  | busy (ep : Endpoint) (before : ℕ) (work : Work)

/-- A request and its response. -/
structure Exchange where
  endpoint : Endpoint
  response : Response
  before : ℕ
  removed : List ℕ

variable (P : Params)

structure State where
  manager : SessionManager.State P.toParams
  handlers : ℕ → Handler
  exchanges : List Exchange

def initial : State P where
  manager := SessionManager.initial P.toParams
  handlers := fun _ => .idle
  exchanges := []

inductive Label where
  /-- Another thread or a task takes a step. -/
  | manager (l : SessionManager.Label)
  /-- The library gives a request to worker `t`. -/
  | request (t : ℕ) (ep : Endpoint)
  /-- The handler in worker `t` takes a step. -/
  | handle (t : ℕ)

variable {P}

def State.setHandler (s : State P) (t : ℕ) (h : Handler) : State P :=
  { s with handlers := Function.update s.handlers t h }

/-- The handler in worker `t` goes on, and the manager has come to `m`. -/
def State.goOn (s : State P) (t : ℕ) (ep : Endpoint) (before : ℕ)
    (m : SessionManager.State P.toParams) (w : Work) : State P :=
  { s with manager := m }.setHandler t (.busy ep before w)

/-! ### Steps -/

/-- Call the manager. -/
def State.callManager (s : State P) (t : ℕ) (ep : Endpoint) (before : ℕ)
    (m : SessionManager.Method) (w : Work) : Option (State P) :=
  (SessionManager.next s.manager (.call t m)).map fun manager => s.goOn t ep before manager w

/-- The first step of a handler: the arguments, and the call. -/
def begin (s : State P) (t : ℕ) (ep : Endpoint) (before : ℕ) : Option (State P) :=
  let answer := fun r : Response => some (s.goOn t ep before s.manager (.answer r))
  match ep with
  | .create body =>
      match (P.parse body).bind readRequest with
      | none => answer (errorResponse 400 ("Invalid request: " ++ P.what body))
      | some none => answer (errorResponse 400 "Missing 'prompt' field")
      | some (some req) => s.callManager t ep before (.create req) .inCall
  | .session digits =>
      match stoull digits with
      | none => answer (errorResponse 400 ("Invalid session ID: " ++ P.what digits))
      | some id => s.callManager t ep before (.get id) .inCall
  | .cancel digits =>
      match stoull digits with
      | none => answer (errorResponse 400 ("Invalid session ID: " ++ P.what digits))
      | some id => s.callManager t ep before (.cancel id) .inCall
  | .list => some (s.goOn t ep before s.manager (.keys 0 []))
  | .health => some (s.goOn t ep before s.manager (.count 0 0))

/-- The next step of the handler in worker `t`. -/
def handle (s : State P) (t : ℕ) : Option (State P) :=
  match s.handlers t with
  | .idle => none
  | .busy ep before work =>
    match work with
    | .start => begin s t ep before
    | .inCall =>
        match s.manager.calls t with
        | .returned r => (respond ep r).bind fun resp =>
            (SessionManager.next s.manager (.ret t)).map fun m =>
              s.goOn t ep before m (.answer resp)
        | _ => (SessionManager.next s.manager (.step t)).map fun m => s.goOn t ep before m .inCall
    | .keys j found =>
        if j < numStripes then
          some (s.goOn t ep before s.manager (.keys (j + 1) (found ++ s.manager.sessions.keysAt j)))
        else some (s.goOn t ep before s.manager (.describe found []))
    | .describe [] sessions =>
        some (s.goOn t ep before s.manager (.answer (listResponse sessions)))
    | .describe (id :: rest) sessions =>
        s.callManager t ep before (.get id) (.inDescribe rest sessions)
    | .inDescribe rest sessions =>
        (Subscription.getStep t s.manager).map fun (m, r) =>
          match r with
          | none => s.goOn t ep before m (.inDescribe rest sessions)
          | some i => s.goOn t ep before m (.describe rest (sessions ++ i.toList))
    | .count j total =>
        if j < numStripes then
          some (s.goOn t ep before s.manager (.count (j + 1) (total + s.manager.sessions.sizeAt j)))
        else some (s.goOn t ep before s.manager (.answer (healthResponse total)))
    | .answer r =>
        let removed := s.manager.removed.map SessionManager.Removal.id
        some ({ s with exchanges := s.exchanges ++ [Exchange.mk ep r before removed] }.setHandler t
          .idle)

/-- The step function. -/
def next (s : State P) : Label → Option (State P)
  | .manager l =>
      match l.thread.map s.handlers with
      | some (.busy _ _ _) => none
      | _ => (SessionManager.next s.manager l).map fun m => { s with manager := m }
  | .request t ep =>
      match s.handlers t with
      | .idle =>
          if s.manager.calls t = .idle then
            some (s.setHandler t (.busy ep s.exchanges.length .start))
          else none
      | .busy _ _ _ => none
  | .handle t => handle s t

/-- The server with its manager. -/
def system (P : Params) : System (State P) Label := System.ofNext (initial P) next

end HttpServer

end Forge
