import Forge.Core.ConcurrentMap
import Forge.Session.WorkflowRun

/-! # Session Manager

  `SessionManager` (`session/session_manager.cpp`): any number of threads
  call `create_session`, `get_session`, `cancel_session` and `gc` while the
  tasks of the sessions run. Every access to something shared is one step:
  the counter, the clock, a stripe of the map, an atomic field or a field
  under `result_mutex`.

  - A session is an object of its own, the map holds pointers to it. A
    pointer is the id the object was made with.
  - `next_id_` is a `uint64_t` that only wraps after 2^64 calls; ids are
    unbounded here.
  - The lock of a stripe that `with_value` holds while it reads is left
    out, so that there are more interleavings than in the program.
  - `created` and `removed` record the ids handed out and the entries
    erased.
-/

namespace Forge

open LTS

namespace SessionManager

structure SessionInfo where
  id : ℕ
  state : SessionState
  stepCount : ℕ
  finalAnswer : String
  error : String
  deriving DecidableEq

/-- What a call returns. -/
inductive Result where
  /-- `create_session`: the id or the error. -/
  | created (id : ℕ)
  | refused (error : String)
  | info (i : Option SessionInfo)
  | cancelled (found : Bool)
  | reaped (n : ℕ)
  deriving DecidableEq

/-- A call of the manager. -/
inductive Method where
  | create (req : CreateSessionRequest)
  | get (id : ℕ)
  | cancel (id : ℕ)
  /-- `gc(max_age)`, in seconds. -/
  | gc (maxAge : ℤ)
  deriving DecidableEq

/-- Where a thread is. The arguments are its local variables. -/
inductive Call where
  | idle
  /-- `next_id_.fetch_add(1)`. -/
  | fetchId (req : CreateSessionRequest) (kind : WorkflowKind)
  /-- The construction of the session, which reads the clock. -/
  | construct (req : CreateSessionRequest) (kind : WorkflowKind) (id : ℕ)
  /-- `size()` in `insert_if_under`, at stripe `j`. -/
  | scan (id j total : ℕ)
  /-- The rest of `insert_if_under`. -/
  | insert (id : ℕ)
  /-- `pool_.submit`. -/
  | submit (id : ℕ)
  /-- The critical section that keeps `inflight_`. -/
  | track (id : ℕ)
  /-- `get_session`: find the entry. -/
  | lookup (id : ℕ)
  | readState (p : ℕ)
  | readStepCount (p : ℕ) (state : SessionState)
  | readAnswer (p : ℕ) (state : SessionState) (stepCount : ℕ)
  | readError (p : ℕ) (state : SessionState) (stepCount : ℕ) (finalAnswer : String)
  /-- `cancel_session`: `mutate`. -/
  | mutate (id : ℕ)
  /-- `gc`: `keys()`, at stripe `j`. -/
  | keys (now : ℕ) (maxAge : ℤ) (j : ℕ) (found : List ℕ)
  /-- `gc`: `with_value` of the next key. -/
  | inspect (now : ℕ) (maxAge : ℤ) (rest : List ℕ) (reaped : ℕ)
  | erase (now : ℕ) (maxAge : ℤ) (id : ℕ) (rest : List ℕ) (reaped : ℕ)
  | returned (r : Result)
  deriving DecidableEq

/-- A session and the task that was dispatched for it. -/
structure Object where
  kind : WorkflowKind
  task : SessionTask.State
  dispatched : Bool
  deriving DecidableEq

def Object.session (o : Object) : Session := o.task.session

/-- `duration_cast<seconds>(now - created_at)`, which truncates. -/
def age (now : ℕ) (x : Session) : ℤ := ((now : ℤ) - x.createdAt).tdiv ticksPerSecond

/-- What `gc` asks of a session. -/
def due (now : ℕ) (maxAge : ℤ) (x : Session) : Bool := x.isTerminal && age now x ≥ maxAge

/-- An entry that `gc(maxAge)` has erased, with the session and the clock
    of that moment. -/
structure Removal where
  id : ℕ
  session : Session
  now : ℕ
  maxAge : ℤ
  deriving DecidableEq

/-- What the manager is given: the capacity, the hash of the map, and what
    the workflows run with. -/
structure Params where
  maxSessions : ℕ
  hash : ℕ → ℕ
  parse : String → Option Json
  reg : ToolRegistry

variable (P : Params)

/-- The number of stripes of `sessions_`. -/
abbrev numStripes : ℕ := 64

instance : NeZero numStripes := ⟨by decide⟩

structure State where
  clock : ℕ
  nextId : ℕ
  sessions : ConcurrentMap ℕ ℕ P.hash numStripes
  objects : ℕ → Option Object
  /-- The futures kept for the destructor. -/
  inflight : List ℕ
  calls : ℕ → Call
  created : List ℕ
  removed : List Removal

def initial : State P where
  clock := 0
  nextId := 1
  sessions := .empty
  objects := fun _ => none
  inflight := []
  calls := fun _ => .idle
  created := []
  removed := []

inductive Label where
  /-- Time passes. -/
  | tick
  /-- Thread `t` calls the manager. -/
  | call (t : ℕ) (m : Method)
  /-- Thread `t` takes a step in its call. -/
  | step (t : ℕ)
  /-- Thread `t` goes on with the value returned. -/
  | ret (t : ℕ)
  /-- The task of session `p`, or its workflow, takes a step. -/
  | task
    (p : ℕ) (l : SessionTask.Label)
  deriving DecidableEq

variable {P}

def State.setCall (s : State P) (t : ℕ) (c : Call) : State P :=
  { s with calls := Function.update s.calls t c }

def State.setObject (s : State P) (p : ℕ) (o : Object) : State P :=
  { s with objects := Function.update s.objects p (some o) }

/-- The future of the task of `p` is ready. -/
def State.ready (s : State P) (p : ℕ) : Bool :=
  match s.objects p with
  | some o => o.task.isFinished
  | none => false

/-- The start of a call. -/
def callStep (s : State P) (t : ℕ) : Method → State P
  | .create req =>
      match WorkflowFactory.create req.workflow with
      | none => s.setCall t (.returned (.refused ("Unknown workflow: " ++ req.workflow)))
      | some kind => s.setCall t (.fetchId req kind)
  | .get id => s.setCall t (.lookup id)
  | .cancel id => s.setCall t (.mutate id)
  | .gc maxAge => s.setCall t (.keys s.clock maxAge 0 [])

/-- A step in a call; `none` when the thread is in none. -/
def threadStep (s : State P) (t : ℕ) : Option (State P) :=
  match s.calls t with
  | .idle | .returned _ => none
  | .fetchId req kind =>
      some ({ s with nextId := s.nextId + 1 }.setCall t (.construct req kind s.nextId))
  | .construct req kind id =>
      let o : Object := ⟨kind, .queued (req.newSession id s.clock), false⟩
      some ((s.setObject id o).setCall t (.scan id 0 0))
  | .scan id j total =>
      if j < numStripes then some (s.setCall t (.scan id (j + 1) (total + s.sessions.sizeAt j)))
      else if total ≥ P.maxSessions then
        some (s.setCall t (.returned
          (.refused ("At capacity (" ++ toString P.maxSessions ++ " sessions)"))))
      else some (s.setCall t (.insert id))
  | .insert id => some ({ s with sessions := s.sessions.set id id }.setCall t (.submit id))
  | .submit id =>
      match s.objects id with
      | some o => some ((s.setObject id { o with dispatched := true }).setCall t (.track id))
      | none => none
  | .track id =>
      some ({ s with
        inflight := s.inflight.filter (fun p => !s.ready p) ++ [id]
        created := s.created ++ [id] }.setCall t (.returned (.created id)))
  | .lookup id =>
      match s.sessions.find id with
      | some p => some (s.setCall t (.readState p))
      | none => some (s.setCall t (.returned (.info none)))
  | .readState p => (s.objects p).map fun o => s.setCall t (.readStepCount p o.session.state)
  | .readStepCount p state =>
      (s.objects p).map fun o => s.setCall t (.readAnswer p state o.session.stepCount)
  | .readAnswer p state stepCount =>
      (s.objects p).map fun o => s.setCall t (.readError p state stepCount o.session.finalAnswer)
  | .readError p state stepCount finalAnswer =>
      (s.objects p).map fun o => s.setCall t
        (.returned (.info (some ⟨o.session.id, state, stepCount, finalAnswer, o.session.error⟩)))
  | .mutate id =>
      match s.sessions.find id with
      | some p => (s.objects p).map fun o =>
          (s.setObject p { o with task := o.task.mapSession SessionTask.cancelRequest }).setCall t
            (.returned (.cancelled true))
      | none => some (s.setCall t (.returned (.cancelled false)))
  | .keys now maxAge j found =>
      if j < numStripes then
        some (s.setCall t (.keys now maxAge (j + 1) (found ++ s.sessions.keysAt j)))
      else some (s.setCall t (.inspect now maxAge found 0))
  | .inspect _ _ [] reaped => some (s.setCall t (.returned (.reaped reaped)))
  | .inspect now maxAge (id :: rest) reaped =>
      match s.sessions.find id with
      | some p => (s.objects p).map fun o => s.setCall t
          (if due now maxAge o.session then .erase now maxAge id rest reaped
            else .inspect now maxAge rest reaped)
      | none => some (s.setCall t (.inspect now maxAge rest reaped))
  | .erase now maxAge id rest reaped =>
      let erased : List Removal :=
        match (s.sessions.find id).bind s.objects with
        | some o => [⟨id, o.session, s.clock, maxAge⟩]
        | none => []
      some ({ s with sessions := s.sessions.erase id, removed := s.removed ++ erased }.setCall t
        (.inspect now maxAge rest (reaped + 1)))

/-- The step function. -/
def next (s : State P) : Label → Option (State P)
  | .tick => some { s with clock := s.clock + 1 }
  | .call t m => if s.calls t = .idle then some (callStep s t m) else none
  | .step t => threadStep s t
  | .ret t =>
      match s.calls t with
      | .returned _ => some (s.setCall t .idle)
      | _ => none
  | .task _ .cancel => none
  | .task p l =>
      match s.objects p with
      | some o =>
          if o.dispatched then
            (SessionTask.next P.parse P.reg o.kind o.task l).map fun task =>
              s.setObject p { o with task := task }
          else none
      | none => none

/-- The manager from its construction on. -/
def system (P : Params) : System (State P) Label := System.ofNext (initial P) next

end SessionManager

end Forge
