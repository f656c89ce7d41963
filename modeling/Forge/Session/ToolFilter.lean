import Forge.Session.SessionTask

/-! # The Tool Filter of a Request

  A request for a session may list tools. `create_session` does not read
  the list: every ReAct run of the session, nested or not, tells the LLM
  of all registered tools and runs each one the LLM asks for. The other
  calls of the LLM come without tools.

  - `advertised`, `executed`: the tools in a step of a ReAct run;
  - `Filtered`: what the filter asks of a step;
  - `Idle`: without iterations a ReAct run calls no LLM and no tool;
  - `tool_filter_iff`: when the filter holds in all runs of a session.
-/

namespace Forge

open LTS

open Workflow (Label)

open MapReduceWorkflow (Action)

/-! ### Tools in a Step -/

namespace ReActWorkflow

/-- The tools named in `tools_json` of the call of the LLM. -/
def advertised (reg : ToolRegistry) (s : State) : List String :=
  match s.pc with
  | .complete => reg.names
  | _ => []

/-- The tools whose handler `execute_batch` gives to the pool. -/
def executed (reg : ToolRegistry) (s : State) : List String :=
  match s.pc with
  | .executeBatch calls => (calls.filter fun call => reg.has call.name).map ToolCall.name
  | _ => []

/-- The session may use the tool. -/
def Allowed (tools : List String) (name : String) : Prop := tools = [] ∨ name ∈ tools

/-- The step keeps to the filter: the tools that are advertised and those
    that are executed are allowed, and of the registered tools all that are
    allowed are available. -/
structure Filtered (tools : List String) (reg : ToolRegistry) (s : State) : Prop where
  advertised : ∀ name ∈ advertised reg s, Allowed tools name
  executed : ∀ name ∈ executed reg s, Allowed tools name
  told : s.pc = .complete → ∀ name ∈ reg.names, Allowed tools name →
    name ∈ ReActWorkflow.advertised reg s
  run : ∀ calls, s.pc = .executeBatch calls → ∀ call ∈ calls, reg.has call.name →
    Allowed tools call.name → call.name ∈ ReActWorkflow.executed reg s

variable {reg : ToolRegistry} {s s' : State} {l : Label} {tools : List String}

/-- Only registered tools are advertised or executed. -/
theorem filtered_of_registered (hall : ∀ name ∈ reg.names, Allowed tools name) :
    Filtered tools reg s where
  advertised := by
    intro name hname
    unfold ReActWorkflow.advertised at hname
    split at hname
    · exact hall name hname
    · simp at hname
  executed := by
    intro name hname
    unfold ReActWorkflow.executed at hname
    split at hname
    · obtain ⟨call, hcall, rfl⟩ := List.mem_map.mp hname
      have hhas := (List.mem_filter.mp hcall).2
      exact hall call.name (by simpa [ToolRegistry.has] using hhas)
    · simp at hname
  told := by
    intro hpc name hname _
    simpa [ReActWorkflow.advertised, hpc] using hname
  run := by
    intro calls hpc call hcall hhas _
    simp only [ReActWorkflow.executed, hpc]
    exact List.mem_map_of_mem (List.mem_filter.mpr ⟨hcall, hhas⟩)

/-- `run` is on the way to its end without a call of the LLM. -/
def PC.idle : PC → Bool
  | .head | .checkCancel | .checkMaxIterations | .setError _ _ | .storeFinal _ | .finish
  | .returned => true
  | _ => false

/-- There are no iterations. -/
structure Idle (s : State) : Prop where
  maxIterations : s.session.config.maxIterations = 0
  pc : s.pc.idle

theorem Idle.step (hi : Idle s) (hs : Moves reg s l s') : Idle s' := by
  obtain ⟨hmax, hpc⟩ := hi
  cases hs
  case notTooMany hlt =>
    simp only at hmax
    omega
  case loopEnds | loopGoesOn | cancelled | notCancelled | tooMany | pushedAll => exact ⟨hmax, rfl⟩
  case setError | storeFinal | finish => exact ⟨hmax, rfl⟩
  all_goals cases hpc

theorem Idle.filtered (hi : Idle s) : Filtered tools reg s := by
  have hpc := hi.pc
  have hcomplete : s.pc ≠ .complete := by
    intro h
    rw [h] at hpc
    cases hpc
  have hbatch : ∀ calls, s.pc ≠ .executeBatch calls := by
    intro calls h
    rw [h] at hpc
    cases hpc
  refine ⟨?_, ?_, fun h => absurd h hcomplete, fun calls h => absurd h (hbatch calls)⟩
  · unfold advertised
    split
    · next h => exact absurd h hcomplete
    · simp
  · unfold executed
    split
    · next calls h => exact absurd h (hbatch calls)
    · simp

/-- The step function without the steps that raise an exception. -/
def quietNext (reg : ToolRegistry) (s : State) (l : Label) : Option State :=
  if raises reg s l then none else next reg s l

theorem quietNext_some (hs : quietNext reg s l = some s') :
    next reg s l = some s' ∧ s.pc ≠ .returned ∧ s'.pc ≠ .threw := by
  unfold quietNext at hs
  split at hs
  · cases hs
  · next hquiet =>
    have hmoves := moves_of_next hs
    refine ⟨hs, ?_, ?_⟩
    · intro hret
      cases hmoves <;> cases hret
    · rw [Ne, threw_iff hmoves]
      exact hquiet

/-- The statements up to the call of the LLM. -/
def untilCall : List Label := [.tau, .tau, .tau, .now 0, .tau, .tau]

/-- With an iteration left, and no cancellation, the LLM is called. -/
theorem exec_untilCall {x : Session} (hstate : x.state.terminal = false)
    (hcancel : x.cancelRequested = false) (hmax : x.stepCount < x.config.maxIterations) :
    ∃ y, System.exec (quietNext reg) (start x) untilCall = some ⟨.complete, y, {}⟩ := by
  have hnot : x.isTerminal = false := hstate
  have hleft : x.exceededMaxIterations = false := by
    simpa [Session.exceededMaxIterations] using hmax
  have hhead : quietNext reg (start x) .tau = some ⟨.checkCancel, x, {}⟩ := by
    show some (State.mk (if x.isTerminal then _ else _) x {}) = _
    rw [hnot]
    rfl
  have hcheckCancel : quietNext reg ⟨.checkCancel, x, {}⟩ .tau =
      some ⟨.checkMaxIterations, x, {}⟩ := by
    show some (State.mk (if x.cancelRequested then _ else _) x {}) = _
    rw [hcancel]
    rfl
  have hcheckMax : quietNext reg ⟨.checkMaxIterations, x, {}⟩ .tau =
      some ⟨.checkTimeout, x, {}⟩ := by
    show some (State.mk (if x.exceededMaxIterations then _ else _) x {}) = _
    rw [hleft]
    rfl
  have hguards : System.exec (quietNext reg) (start x) [.tau, .tau, .tau] =
      some ⟨.checkTimeout, x, {}⟩ := by
    simp only [System.exec, hhead, hcheckCancel, hcheckMax, Option.bind_some]
  exact ⟨Session.countStep { x with state := .waitingForLlm }, System.exec_append hguards⟩

end ReActWorkflow

/-! ### The ReAct Runs of a Session -/

namespace PlanExecuteWorkflow

/-- The ReAct run that takes the step. -/
def State.react? (s : State) : Option ReActWorkflow.State :=
  match s.pc with
  | .runSub _ sub => some sub
  | _ => none

structure Idle (s : State) : Prop where
  maxIterations : s.session.config.maxIterations = 0
  sub : ∀ sub ∈ s.react?, ReActWorkflow.Idle sub

theorem Idle.step {parse : String → Option Json} {reg : ToolRegistry} {s s' : State} {l : Label}
    (hi : Idle s) (hs : Moves parse reg s l s') : Idle s' := by
  obtain ⟨hmax, hsub⟩ := hi
  cases hs
  case createSub => exact ⟨hmax, by simpa [State.react?] using ⟨hmax, rfl⟩⟩
  case sub _ hmoves =>
    refine ⟨hmax, ?_⟩
    rintro sub' ⟨⟩
    exact (hsub _ rfl).step hmoves
  case exitNext e _ _ | exitLast e _ =>
    refine ⟨?_, by simp [State.react?]⟩
    cases e <;> exact hmax
  all_goals exact ⟨hmax, by simp [State.react?]⟩

end PlanExecuteWorkflow

namespace MapReduceWorkflow

structure Idle (s : State) : Prop where
  maxIterations : s.session.config.maxIterations = 0
  sub : ∀ sub, .runSub sub ∈ s.subs → ReActWorkflow.Idle sub

/-- Changing one sub-task. -/
theorem Idle.set {s : State} (hi : Idle s) {i : ℕ} {pc : SubPC}
    (hpc : ∀ sub, pc = .runSub sub → ReActWorkflow.Idle sub) :
    ∀ sub, .runSub sub ∈ s.subs.set i pc → ReActWorkflow.Idle sub := by
  intro sub hmem
  obtain hold | hnew := List.mem_or_eq_of_mem_set hmem
  · exact hi.sub sub hold
  · exact hpc sub hnew.symm

variable {parse : String → Option Json} {reg : ToolRegistry} {s s' : State}

theorem Idle.main {l : Label} (hi : Idle s) (hs : MainMoves parse s l s') : Idle s' := by
  obtain ⟨hmax, hsub⟩ := hi
  cases hs
  case noTasks => exact ⟨hmax, by simp⟩
  case decomposed => exact ⟨hmax, by simp⟩
  case submit x res tasks subs i hlt =>
    have hi : Idle ⟨.submit i, x, res, tasks, subs⟩ := ⟨hmax, hsub⟩
    exact ⟨hmax, hi.set (by simp)⟩
  case exitNext e _ _ | exitLast e _ =>
    refine ⟨?_, hsub⟩
    cases e <;> exact hmax
  all_goals exact ⟨hmax, hsub⟩

theorem Idle.sub_step {i : ℕ} {l : Label} (hi : Idle s) (hs : SubMoves reg i s l s') : Idle s' := by
  cases hs
  case createSub =>
    refine ⟨hi.maxIterations, hi.set ?_⟩
    rintro sub ⟨⟩
    exact ⟨hi.maxIterations, rfl⟩
  case sub hpc hthrew hmoves =>
    refine ⟨hi.maxIterations, hi.set ?_⟩
    rintro sub' ⟨⟩
    exact (hi.sub _ (List.mem_of_getElem? hpc)).step hmoves
  all_goals exact ⟨hi.maxIterations, hi.set (by simp)⟩

end MapReduceWorkflow

namespace WorkflowState

/-- The ReAct run that takes the step. -/
def react? : WorkflowState → Action → Option ReActWorkflow.State
  | .react s, .main _ => some s
  | .planExecute s, .main _ => s.react?
  | .mapReduce s, .sub i _ =>
      match s.subs[i]? with
      | some (.runSub sub) => some sub
      | _ => none
  | _, _ => none

def Idle : WorkflowState → Prop
  | .react s => ReActWorkflow.Idle s
  | .planExecute s => PlanExecuteWorkflow.Idle s
  | .mapReduce s => MapReduceWorkflow.Idle s

variable {parse : String → Option Json} {reg : ToolRegistry} {w w' : WorkflowState} {a : Action}

theorem idle_start (kind : WorkflowKind) {x : Session} (hx : x.config.maxIterations = 0) :
    (start kind x).Idle := by
  cases kind with
  | react => exact ⟨hx, rfl⟩
  | planExecute => exact ⟨hx, by simp [PlanExecuteWorkflow.start, PlanExecuteWorkflow.State.react?]⟩
  | mapReduce => exact ⟨hx, by simp [MapReduceWorkflow.start]⟩

theorem Idle.step (hi : w.Idle) (hs : w.next parse reg a = some w') : w'.Idle := by
  obtain ⟨s, s', l, rfl, rfl, rfl, hs'⟩ | ⟨s, s', l, rfl, rfl, rfl, hs'⟩ | ⟨s, s', rfl, rfl, hs'⟩ :=
    next_cases hs
  · exact ReActWorkflow.Idle.step hi hs'
  · exact PlanExecuteWorkflow.Idle.step hi hs'
  · cases a with
    | main l => exact MapReduceWorkflow.Idle.main hi (MapReduceWorkflow.mainMoves_of_next hs')
    | sub i l => exact MapReduceWorkflow.Idle.sub_step hi (MapReduceWorkflow.subMoves_of_next hs')

theorem Idle.cancel (hi : w.Idle) : (w.mapSession SessionTask.cancelRequest).Idle := by
  cases w with
  | react s => exact ⟨hi.maxIterations, hi.pc⟩
  | planExecute s => exact ⟨hi.maxIterations, hi.sub⟩
  | mapReduce s => exact ⟨hi.maxIterations, hi.sub⟩

/-- The ReAct runs of an idle workflow are idle. -/
theorem Idle.react (hi : w.Idle) {r : ReActWorkflow.State} (hr : w.react? a = some r) :
    ReActWorkflow.Idle r := by
  cases w <;> cases a <;> simp only [react?, reduceCtorEq, Option.some.injEq] at hr
  case react.main s l =>
    subst hr
    exact hi
  case planExecute.main s l => exact hi.sub r hr
  case mapReduce.sub s i l =>
    split at hr
    · next sub hsub =>
      cases hr
      exact hi.sub r (List.mem_of_getElem? hsub)
    · cases hr

end WorkflowState

namespace SessionTask

/-- The ReAct run that takes the step. -/
def State.react? : State → Label → Option ReActWorkflow.State
  | .running w, .work a | .finished w, .work a => w.react? a
  | _, _ => none

def Idle : State → Prop
  | .queued x | .create x => x.config.maxIterations = 0
  | .running w | .finished w => w.Idle

variable {parse : String → Option Json} {reg : ToolRegistry} {kind : WorkflowKind} {x : Session}
  {s s' : State} {l : Label}

theorem Idle.step (hi : Idle s) (hs : next parse reg kind s l = some s') : Idle s' := by
  cases l with
  | cancel =>
    cases hs
    cases s with
    | queued x | create x => exact hi
    | running w | finished w => exact WorkflowState.Idle.cancel hi
  | task =>
    cases s <;> simp only [next, Option.some.injEq, reduceCtorEq] at hs
    case queued x =>
      subst hs
      exact hi
    case create x =>
      subst hs
      exact WorkflowState.idle_start kind hi
    case running w =>
      simp only [Option.ite_none_right_eq_some, Option.some.injEq] at hs
      obtain ⟨-, rfl⟩ := hs
      exact hi
  | work a =>
    cases s <;> simp only [next, Option.map_eq_some_iff, reduceCtorEq] at hs
    case running w | finished w =>
      obtain ⟨w', hw, rfl⟩ := hs
      exact WorkflowState.Idle.step hi hw

theorem Idle.react (hi : Idle s) {r : ReActWorkflow.State} (hr : s.react? l = some r) :
    ReActWorkflow.Idle r := by
  cases s <;> cases l <;> simp only [State.react?, reduceCtorEq] at hr
  case running w a | finished w a => exact WorkflowState.Idle.react hi hr

/-! ### A Session that Calls the LLM -/

/-- A step of the session's task calls the LLM from a ReAct run. -/
def CallsLLM (parse : String → Option Json) (reg : ToolRegistry) (kind : WorkflowKind)
    (x : Session) : Prop :=
  ∃ tr s l s' r, (system parse reg kind x).Run tr s ∧ next parse reg kind s l = some s' ∧
    s.react? l = some r ∧ r.pc = .complete

/-- A response that is no JSON is a plan of one step. -/
theorem parseEntries_of_none {key text : String} (htext : parse text = none) :
    Workflow.parseEntries parse key text = [(1, text)] := by
  simp [Workflow.parseEntries, htext]

/-- A ReAct run that starts somewhere in the task calls the LLM; `embed`
    says where it is. -/
theorem callsLLM_of_start {z : Session} (embed : ReActWorkflow.State → State)
    (label : Workflow.Label → Label) (hstate : z.state.terminal = false)
    (hcancel : z.cancelRequested = false) (hmax : z.stepCount < z.config.maxIterations)
    (hstep : ∀ r l r', ReActWorkflow.quietNext reg r l = some r' →
      next parse reg kind (embed r) (label l) = some (embed r'))
    (hreact : ∀ r l, (embed r).react? (label l) = some r) {tr : List Label}
    (hrun : (system parse reg kind x).Run tr (embed (ReActWorkflow.start z))) :
    CallsLLM parse reg kind x := by
  obtain ⟨y, hcall⟩ : ∃ y, System.exec (ReActWorkflow.quietNext reg) (ReActWorkflow.start z)
      ReActWorkflow.untilCall = some ⟨.complete, y, {}⟩ :=
    ReActWorkflow.exec_untilCall hstate hcancel hmax
  have hlift := System.exec_map embed label hstep hcall
  exact ⟨_, _, label .tau, embed ⟨.get, y, {}⟩, ⟨.complete, y, {}⟩, hrun.exec_append hlift,
    hstep _ _ _ rfl, hreact _ _, rfl⟩

theorem callsLLM_react (hcancel : x.cancelRequested = false)
    (hmax : x.stepCount < x.config.maxIterations) : CallsLLM parse reg .react x := by
  have hstart : System.exec (next parse reg .react) (.queued x) [.task, .task] =
      some (.running (.react (ReActWorkflow.start { x with state := .waitingForLlm }))) := rfl
  refine callsLLM_of_start (z := { x with state := .waitingForLlm })
    (fun r => .running (.react r)) (fun l => .work (.main l)) rfl hcancel hmax ?_ (fun _ _ => rfl)
    (System.run_of_exec hstart)
  intro r l r' hr
  simp [next, WorkflowState.next, (ReActWorkflow.quietNext_some hr).1]

/-- The LLM answers with a text that is no JSON. -/
def unparsed (text : String) : Workflow.Label :=
  .reply { message := { role := "assistant", content := text } }

/-- That answer gives a plan of one step. -/
theorem next_planGet {text : String} (htext : parse text = none) (z : Session)
    (res : WorkflowResult) :
    PlanExecuteWorkflow.next parse reg ⟨.planGet, z, res, []⟩ (unparsed text) =
      some ⟨.storeExecuting, z, res.addTokens 0 0, [{ id := 1, description := text }]⟩ := by
  have hplan : PlanExecuteWorkflow.generatePlan parse
      { message := { role := "assistant", content := text } } =
      [{ id := 1, description := text }] := by
    simp [PlanExecuteWorkflow.generatePlan, parseEntries_of_none htext]
  show some _ = _
  rw [hplan]
  rfl

theorem callsLLM_planExecute {text : String} (htext : parse text = none)
    (hcancel : x.cancelRequested = false) (hmax : 0 < x.config.maxIterations) :
    CallsLLM parse reg .planExecute x := by
  obtain ⟨y, rfl⟩ : ∃ y : Session, x = { y with cancelRequested := false } :=
    ⟨x, by rw [← hcancel]⟩
  let w : Session := { y with cancelRequested := false, state := .waitingForLlm }
  let z : Session := { w with state := .executingTools }.countStep
  let steps : List PlanExecuteWorkflow.Step := [{ id := 1, description := text }]
  have hbefore : System.exec (next parse reg .planExecute)
      (.queued { y with cancelRequested := false })
      [.task, .task, .work (.main .tau), .work (.main .tau)] =
      some (.running (.planExecute ⟨.planGet, w, {}, []⟩)) := rfl
  have hreply : System.exec (next parse reg .planExecute)
      (.running (.planExecute ⟨.planGet, w, {}, []⟩)) [.work (.main (unparsed text))] =
      some (.running (.planExecute ⟨.storeExecuting, w, {}, steps⟩)) := by
    simp only [System.exec, next, WorkflowState.next, next_planGet htext, Option.map_some,
      Option.bind_some]
    rfl
  have hafter : System.exec (next parse reg .planExecute)
      (.running (.planExecute ⟨.storeExecuting, w, {}, steps⟩))
      [.work (.main .tau), .work (.main .tau), .work (.main .tau), .work (.main (.now 0))] =
      some (.running (.planExecute ⟨.runSub 0 (ReActWorkflow.start (z.newSub text 0)), z, {},
        steps⟩)) := rfl
  have hrun := ((System.run_of_exec hbefore).exec_append hreply).exec_append hafter
  refine callsLLM_of_start (fun r => .running (.planExecute ⟨.runSub 0 r, z, {}, steps⟩))
    (fun l => .work (.main l)) rfl rfl hmax ?_ (fun _ _ => rfl) hrun
  intro r l r' hr
  obtain ⟨hr', hgoing, hquiet⟩ := ReActWorkflow.quietNext_some hr
  simp [next, WorkflowState.next, PlanExecuteWorkflow.next, hgoing, hquiet, hr']

/-- That answer gives one sub-task. -/
theorem next_decomposeGet {text : String} (htext : parse text = none) (z : Session)
    (res : WorkflowResult) :
    MapReduceWorkflow.mainNext parse ⟨.decomposeGet, z, res, [], []⟩ (unparsed text) =
      some ⟨.storeExecuting, z, res.addTokens 0 0, [{ id := 1, description := text }],
        [.pending]⟩ := by
  have htasks : MapReduceWorkflow.decompose parse
      { message := { role := "assistant", content := text } } =
      [{ id := 1, description := text }] := by
    simp [MapReduceWorkflow.decompose, parseEntries_of_none htext]
  show some _ = _
  rw [htasks]
  rfl

theorem callsLLM_mapReduce {text : String} (htext : parse text = none)
    (hcancel : x.cancelRequested = false) (hmax : 0 < x.config.maxIterations) :
    CallsLLM parse reg .mapReduce x := by
  obtain ⟨y, rfl⟩ : ∃ y : Session, x = { y with cancelRequested := false } :=
    ⟨x, by rw [← hcancel]⟩
  let w : Session := { y with cancelRequested := false, state := .waitingForLlm }
  let z : Session := { w with state := .executingTools }.countStep
  let task : MapReduceWorkflow.SubTask := { id := 1, description := text }
  have hbefore : System.exec (next parse reg .mapReduce)
      (.queued { y with cancelRequested := false })
      [.task, .task, .work (.main .tau), .work (.main .tau)] =
      some (.running (.mapReduce ⟨.decomposeGet, w, {}, [], []⟩)) := rfl
  have hreply : System.exec (next parse reg .mapReduce)
      (.running (.mapReduce ⟨.decomposeGet, w, {}, [], []⟩)) [.work (.main (unparsed text))] =
      some (.running (.mapReduce ⟨.storeExecuting, w, {}, [task], [.pending]⟩)) := by
    simp only [System.exec, next, WorkflowState.next, MapReduceWorkflow.next,
      next_decomposeGet htext, Option.map_some, Option.bind_some]
    rfl
  have hafter : System.exec (next parse reg .mapReduce)
      (.running (.mapReduce ⟨.storeExecuting, w, {}, [task], [.pending]⟩))
      [.work (.main .tau), .work (.main .tau), .work (.sub 0 .tau), .work (.sub 0 .tau),
        .work (.sub 0 (.now 0))] =
      some (.running (.mapReduce ⟨.submit 1, z, {}, [task],
        [.runSub (ReActWorkflow.start (z.newSub text 0))]⟩)) := rfl
  have hrun := ((System.run_of_exec hbefore).exec_append hreply).exec_append hafter
  refine callsLLM_of_start
    (fun r => .running (.mapReduce ⟨.submit 1, z, {}, [task], [.runSub r]⟩))
    (fun l => .work (.sub 0 l)) rfl rfl hmax ?_ (fun _ _ => rfl) hrun
  intro r l r' hr
  obtain ⟨hr', hgoing, hquiet⟩ := ReActWorkflow.quietNext_some hr
  simp [next, WorkflowState.next, MapReduceWorkflow.next, MapReduceWorkflow.subNext, hgoing, hquiet,
    hr']

/-! ### When the Filter Holds -/

/-- What `create_session` keeps of a request. -/
theorem createSession_eq {maxSessions id now : ℕ} {inserted : Bool} {req : CreateSessionRequest}
    (hcreate : createSession maxSessions inserted id now req = .ok (kind, x)) :
    x = req.newSession id now := by
  unfold createSession at hcreate
  split at hcreate
  · cases hcreate
  · split at hcreate <;> cases hcreate
    rfl

/-- **The tool filter.** In all runs of the task of a session, for every
    LLM, the ReAct runs keep to the filter of the request if and only if it
    lists no tool at all, or every registered one, or there are no
    iterations, so that no ReAct run calls the LLM. The timeout of a
    request is zero or more. -/
theorem tool_filter_iff {maxSessions id now : ℕ} {inserted : Bool} {req : CreateSessionRequest}
    (hparse : ∃ text, parse text = none)
    (hcreate : createSession maxSessions inserted id now req = .ok (kind, x)) :
    (∀ tr s l s' r, (system parse reg kind x).Run tr s → next parse reg kind s l = some s' →
      s.react? l = some r → ReActWorkflow.Filtered req.tools reg r) ↔
      req.tools = [] ∨ (∀ name ∈ reg.names, name ∈ req.tools) ∨ req.config.maxIterations = 0 := by
  obtain rfl := createSession_eq hcreate
  constructor
  · intro hall
    by_contra hnone
    simp only [not_or, not_forall] at hnone
    obtain ⟨htools, ⟨name, hname, hout⟩, hmax⟩ := hnone
    have hcalls : CallsLLM parse reg kind (req.newSession id now) := by
      obtain ⟨text, htext⟩ := hparse
      have hpos : 0 < req.config.maxIterations := Nat.pos_of_ne_zero hmax
      cases kind with
      | react => exact callsLLM_react rfl hpos
      | planExecute => exact callsLLM_planExecute htext rfl hpos
      | mapReduce => exact callsLLM_mapReduce htext rfl hpos
    obtain ⟨tr, s, l, s', r, hrun, hs, hr, hpc⟩ := hcalls
    -- all registered tools are in the request
    have hadvertised := (hall tr s l s' r hrun hs hr).advertised name
      (by simpa [ReActWorkflow.advertised, hpc] using hname)
    obtain hempty | hmem := hadvertised
    · exact htools hempty
    · exact hout hmem
  · intro hcond tr s l s' r hrun hs hr
    obtain hempty | hall | hzero := hcond
    · exact ReActWorkflow.filtered_of_registered fun _ _ => .inl hempty
    · exact ReActWorkflow.filtered_of_registered fun name hname => .inr (hall name hname)
    · have hidle : Idle s := by
        refine hrun.invariant ?_ ?_
        · rintro s rfl
          exact hzero
        · intro s l s' hi hs
          exact hi.step hs
      exact (hidle.react hr).filtered

/-! ### A Tool outside the List -/

/-- A question for which only the calculator may be used. -/
def calculation : CreateSessionRequest := { prompt := "2 + 2?", tools := ["calculator"] }

/-- The LLM asks for the shell. -/
def asksForShell : List Label :=
  untilCall ++
    [Label.work (.main (.reply
        { message := { role := "assistant", toolCalls := [⟨"1", "shell", ""⟩] } })),
      .work (.main .tau), .work (.main .tau)]

/-- The shell is run for a session that may use the calculator only. -/
theorem shell_executed :
    ¬ ∀ (parse : String → Option Json) (reg : ToolRegistry) (maxSessions id now : ℕ)
      (inserted : Bool) (req : CreateSessionRequest) (kind : WorkflowKind) (x : Session),
      createSession maxSessions inserted id now req = .ok (kind, x) → req.tools ≠ [] →
      ∀ tr s l s' r, (system parse reg kind x).Run tr s → next parse reg kind s l = some s' →
        s.react? l = some r → ∀ name ∈ ReActWorkflow.executed reg r, name ∈ req.tools := by
  intro hall
  have hends : (System.exec (next (fun _ => none) ⟨["calculator", "shell"]⟩ .react)
      (.queued (calculation.newSession 1 0)) asksForShell).map (fun s =>
      ((next (fun _ => none) ⟨["calculator", "shell"]⟩ .react s
        (.work (.main (.batch [.output "root"])))).isSome,
      (s.react? (.work (.main (.batch [.output "root"])))).map
        (ReActWorkflow.executed ⟨["calculator", "shell"]⟩))) = some (true, some ["shell"]) := by
    decide
  obtain ⟨s, hrun, hends⟩ := System.exists_run_of_exec hends
  simp only [Prod.mk.injEq, Option.map_eq_some_iff] at hends
  obtain ⟨hsome, r, hr, hexecuted⟩ := hends
  obtain ⟨s', hs⟩ := Option.isSome_iff_exists.mp hsome
  have hcreate : createSession 1 true 1 0 calculation =
      .ok (.react, calculation.newSession 1 0) := rfl
  have hlisted := hall _ _ 1 1 0 true calculation _ _ hcreate (by decide) asksForShell s _ s' r
    hrun hs hr "shell" (by rw [hexecuted]; decide)
  exact absurd hlisted (by decide)

/-- Where the calculator is the only tool, the shell is not run. -/
theorem calculation_filtered :
    ∃ s s' r, (system (fun _ => none) ⟨["calculator"]⟩ .react (calculation.newSession 1 0)).Run
        asksForShell s ∧
      next (fun _ => none) ⟨["calculator"]⟩ .react s (.work (.main (.batch [.output "root"]))) =
        some s' ∧
      s.react? (.work (.main (.batch [.output "root"]))) = some r ∧
      ReActWorkflow.Filtered calculation.tools ⟨["calculator"]⟩ r := by
  have hends : (System.exec (next (fun _ => none) ⟨["calculator"]⟩ .react)
      (.queued (calculation.newSession 1 0)) asksForShell).map (fun s =>
      ((next (fun _ => none) ⟨["calculator"]⟩ .react s
        (.work (.main (.batch [.output "root"])))).isSome,
      (s.react? (.work (.main (.batch [.output "root"])))).isSome)) = some (true, true) := by
    decide
  obtain ⟨s, hrun, hends⟩ := System.exists_run_of_exec hends
  simp only [Prod.mk.injEq] at hends
  obtain ⟨s', hs⟩ := Option.isSome_iff_exists.mp hends.1
  obtain ⟨r, hr⟩ := Option.isSome_iff_exists.mp hends.2
  have hcreate : createSession 1 true 1 0 calculation =
      .ok (.react, calculation.newSession 1 0) := rfl
  exact ⟨s, s', r, hrun, hs, hr, (tool_filter_iff ⟨"", rfl⟩ hcreate).mpr (.inr (.inl (by decide)))
    asksForShell s _ s' r hrun hs hr⟩

end SessionTask

end Forge
