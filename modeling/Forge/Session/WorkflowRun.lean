import Forge.Session.SessionTask
import Forge.Workflow.Outcome

/-! # A Run of a Workflow

  `wf->run(session)` on a fresh session, for each of the workflows, with a
  cancellation at any moment. Besides the workflow the state records what
  the run does to the atomic fields of the session: the states it stores
  and the values `step_count` takes.

  - `PC.store` of each workflow: the statements that store a state;
  - `Stored`: the states stored so far, and the one the session is in;
  - `run_outcome`: what a run that returns has done.
-/

namespace Forge

open LTS

open MapReduceWorkflow (Action)

/-! ### Stores of the State -/

/-- What a step stores in `session.state`, and that it finds no terminal
    state there. -/
def StoreOk (store : Option SessionState) (x x' : Session) : Prop :=
  match store with
  | none => x'.state = x.state
  | some st => x'.state = st ∧ x.state.terminal = false

/-- The state a statement of `ReActWorkflow::run` stores. -/
def ReActWorkflow.PC.store : ReActWorkflow.PC → Option SessionState
  | .storeWaiting => some .waitingForLlm
  | .storeExecuting _ => some .executingTools
  | .storeFinal final => some final
  | _ => none

/-- The state a statement on the way out stores. -/
def Workflow.Exit.store : Workflow.Exit → Option SessionState
  | .storeError final => some final
  | .storeCompleted _ => some .completed
  | _ => none

/-- The state a statement of `PlanExecuteWorkflow::run` stores. -/
def PlanExecuteWorkflow.PC.store : PlanExecuteWorkflow.PC → Option SessionState
  | .storeWaiting | .storeSynthesizing => some .waitingForLlm
  | .storeExecuting => some .executingTools
  | .exit e => e.store
  | _ => none

/-- The state a statement of `MapReduceWorkflow::run` stores. -/
def MapReduceWorkflow.PC.store : MapReduceWorkflow.PC → Option SessionState
  | .storeWaiting | .storeReducing => some .waitingForLlm
  | .storeExecuting => some .executingTools
  | .exit e => e.store
  | _ => none

theorem ReActWorkflow.storeOk {reg : ToolRegistry} {s s' : ReActWorkflow.State}
    {l : Workflow.Label} (hok : SessionOk s) (hs : Moves reg s l s') :
    StoreOk s.pc.store s.session s'.session := by
  cases hs
  case storeWaiting | storeExecuting => exact ⟨rfl, hok⟩
  case storeFinal => exact ⟨rfl, hok.1⟩
  all_goals exact rfl

theorem Workflow.Exit.storeOk {e : Workflow.Exit} {x : Session} (hok : e.Allows x.state) :
    StoreOk e.store x (e.session x) := by
  cases e
  case storeError => exact ⟨rfl, hok.1⟩
  case storeCompleted => exact ⟨rfl, hok⟩
  all_goals exact rfl

theorem PlanExecuteWorkflow.storeOk {parse : String → Option Json} {reg : ToolRegistry}
    {s s' : PlanExecuteWorkflow.State} {l : Workflow.Label} (hok : SessionOk s)
    (hs : Moves parse reg s l s') : StoreOk s.pc.store s.session s'.session := by
  cases hs
  case storeWaiting | storeExecuting | storeSynthesizing => exact ⟨rfl, hok⟩
  case exitNext | exitLast => exact Workflow.Exit.storeOk hok
  all_goals exact rfl

theorem MapReduceWorkflow.storeOk {parse : String → Option Json}
    {s s' : MapReduceWorkflow.State} {l : Workflow.Label} (hi : Inv s)
    (hs : MainMoves parse s l s') : StoreOk s.pc.store s.session s'.session := by
  have hok := hi.session
  cases hs
  case storeWaiting | storeExecuting | storeReducing => exact ⟨rfl, hok⟩
  case exitNext | exitLast => exact Workflow.Exit.storeOk hok
  all_goals exact rfl

/-! ### The Three Workflows Alike -/

namespace WorkflowState

/-- The state the step stores. -/
def store : WorkflowState → Action → Option SessionState
  | .react s, .main _ => s.pc.store
  | .planExecute s, .main _ => s.pc.store
  | .mapReduce s, .main _ => s.pc.store
  | _, _ => none

/-- What `run` returns. -/
def result : WorkflowState → WorkflowResult
  | .react s => s.result
  | .planExecute s => s.result
  | .mapReduce s => s.result

/-- `run` has returned. -/
def isReturned : WorkflowState → Bool
  | .react s => s.pc = .returned
  | .planExecute s => s.pc = .returned
  | .mapReduce s => s.pc = .returned

/-- The plan steps or sub-tasks the LLM has given. -/
def planned : WorkflowState → ℕ
  | .react _ => 0
  | .planExecute s => s.steps.length
  | .mapReduce s => s.tasks.length

/-- The session and the result are as far as `run` is. -/
def Outcome : WorkflowState → Prop
  | .react s => ReActWorkflow.Outcome s
  | .planExecute s => PlanExecuteWorkflow.Outcome s
  | .mapReduce s => MapReduceWorkflow.Outcome s

/-- The counter is as far as `run` is. -/
def Counts : WorkflowState → Prop
  | .react s => s.session.config.maxIterations < 2 ^ 32 ∧ s.pc.Counts s.session
  | .planExecute s => s.pc.Counts s.steps.length s.session.stepCount
  | .mapReduce s => MapReduceWorkflow.Counts s

variable {parse : String → Option Json} {reg : ToolRegistry} {w w' : WorkflowState} {a : Action}
  {x : Session}

theorem outcome_start (kind : WorkflowKind) (hstate : x.state.terminal = false) (hx : x.Blank) :
    (start kind x).Outcome := by
  cases kind with
  | react => exact ReActWorkflow.outcome_start hstate hx
  | planExecute => exact PlanExecuteWorkflow.outcome_start hstate hx
  | mapReduce => exact MapReduceWorkflow.outcome_start hstate hx

theorem counts_start (kind : WorkflowKind) (hx : x.Fresh) : (start kind x).Counts := by
  cases kind with
  | react =>
    refine ⟨hx.maxIterations, ?_⟩
    show x.stepCount ≤ x.config.maxIterations
    rw [hx.stepCount]
    exact Nat.zero_le _
  | planExecute => exact ⟨rfl, hx.stepCount⟩
  | mapReduce => exact MapReduceWorkflow.counts_start hx.stepCount

theorem Outcome.inv (ho : w.Outcome) : w.Inv := by
  cases w with
  | react s => exact ReActWorkflow.Outcome.session ho
  | planExecute s => exact PlanExecuteWorkflow.Outcome.session ho
  | mapReduce s => exact MapReduceWorkflow.Outcome.inv ho

theorem Outcome.step (ho : w.Outcome) (hs : w.next parse reg a = some w') : w'.Outcome := by
  obtain ⟨s, s', l, rfl, rfl, rfl, hs'⟩ | ⟨s, s', l, rfl, rfl, rfl, hs'⟩ | ⟨s, s', rfl, rfl, hs'⟩ :=
    next_cases hs
  · exact ReActWorkflow.Outcome.step ho hs'
  · exact PlanExecuteWorkflow.Outcome.step ho hs'
  · exact MapReduceWorkflow.Outcome.step ho hs'

/-- With fewer than 2^32 plan steps or sub-tasks the counter never goes
    back. -/
theorem Counts.step (ho : w.Outcome) (hc : w.Counts) (hs : w.next parse reg a = some w') :
    w'.Counts ∧ (w'.planned < 2 ^ 32 →
      w.planned < 2 ^ 32 ∧ w.session.stepCount ≤ w'.session.stepCount) := by
  obtain ⟨s, s', l, rfl, rfl, rfl, hs'⟩ | ⟨s, s', l, rfl, rfl, rfl, hs'⟩ | ⟨s, s', rfl, rfl, hs'⟩ :=
    next_cases hs
  · obtain ⟨hmax, hcounts⟩ := hc
    obtain ⟨hcounts', hmono⟩ := hcounts.step hmax hs'
    refine ⟨⟨?_, hcounts'⟩, fun _ => ⟨by simp [planned], hmono⟩⟩
    rw [ReActWorkflow.config_eq hs']
    exact hmax
  · exact PlanExecuteWorkflow.PC.Counts.step hc hs'
  · exact MapReduceWorkflow.Counts.step ho.inv hc hs'

theorem storeOk (hi : w.Inv) (hs : w.next parse reg a = some w') :
    StoreOk (w.store a) w.session w'.session := by
  obtain ⟨s, s', l, rfl, rfl, rfl, hs'⟩ | ⟨s, s', l, rfl, rfl, rfl, hs'⟩ | ⟨s, s', rfl, rfl, hs'⟩ :=
    next_cases hs
  · exact ReActWorkflow.storeOk hi hs'
  · exact PlanExecuteWorkflow.storeOk hi hs'
  · cases a with
    | main l => exact MapReduceWorkflow.storeOk hi (MapReduceWorkflow.mainMoves_of_next hs')
    | sub i l => exact (MapReduceWorkflow.sub_cases hs').2.1

/-- Cancelling changes nothing the outcome speaks of. -/
theorem Outcome.cancel (ho : w.Outcome) : (w.mapSession SessionTask.cancelRequest).Outcome := by
  cases w with
  | react s =>
    exact ⟨ho.session, ho.fields.congr ⟨rfl, rfl, rfl⟩, ho.result⟩
  | planExecute s => exact ⟨ho.session, ho.fields.congr ⟨rfl, rfl, rfl⟩⟩
  | mapReduce s =>
    exact ⟨⟨⟨ho.inv.joined, ho.inv.unsubmitted⟩, ho.inv.session⟩, ho.fields.congr ⟨rfl, rfl, rfl⟩⟩

theorem Counts.cancel (hc : w.Counts) : (w.mapSession SessionTask.cancelRequest).Counts := by
  cases w with
  | react s =>
    refine ⟨hc.1, ?_⟩
    have hcounts := hc.2
    cases hpc : s.pc <;> rw [hpc] at hcounts <;> exact hcounts
  | planExecute s => exact hc
  | mapReduce s => exact ⟨hc.lengths, hc.le, hc.decomposing⟩

/-- A session in a terminal state has the result that goes with it. -/
theorem Outcome.settled (ho : w.Outcome) (hterm : w.session.isTerminal) :
    w.session.Settled w.session.state := by
  cases w with
  | react s => exact ReActWorkflow.Outcome.settled ho hterm
  | planExecute s => exact PlanExecuteWorkflow.Outcome.settled ho hterm
  | mapReduce s => exact MapReduceWorkflow.Outcome.settled ho hterm

/-- What has been settled stays. -/
theorem Outcome.agrees (ho : w.Outcome) (hterm : w.session.isTerminal)
    (hs : w.next parse reg a = some w') : w.session.Agrees w'.session := by
  obtain ⟨s, s', l, rfl, rfl, rfl, hs'⟩ | ⟨s, s', l, rfl, rfl, rfl, hs'⟩ | ⟨s, s', rfl, rfl, hs'⟩ :=
    next_cases hs
  · exact ReActWorkflow.Outcome.agrees ho hterm hs'
  · exact PlanExecuteWorkflow.Outcome.agrees ho hterm hs'
  · exact MapReduceWorkflow.Outcome.agrees ho hterm hs'

/-- A run that returns reports what it has settled. -/
theorem Outcome.reports (ho : w.Outcome) (hret : w.isReturned) :
    w.session.isTerminal ∧ w.result.Reports w.session := by
  cases w with
  | react s =>
    have hpc : s.pc = .returned := by simpa [isReturned] using hret
    have hallows : s.pc.Allows s.session.state := ho.session
    rw [hpc] at hallows
    exact ⟨hallows, ho.result hpc⟩
  | planExecute s =>
    have hpc : s.pc = .returned := by simpa [isReturned] using hret
    have hallows : s.pc.Allows s.session.state := ho.session
    have hfields := ho.fields
    rw [hpc] at hallows hfields
    exact ⟨hallows, hfields.2⟩
  | mapReduce s =>
    have hpc : s.pc = .returned := by simpa [isReturned] using hret
    have hallows : s.pc.Allows s.session.state := ho.inv.session
    have hfields := ho.fields
    rw [hpc] at hallows hfields
    exact ⟨hallows, hfields.2⟩

end WorkflowState

/-! ### The Dispatched Task -/

/-- What no step of a workflow changes. -/
def Session.SameOrigin (x x' : Session) : Prop := x'.id = x.id ∧ x'.createdAt = x.createdAt

theorem WorkflowState.sameOrigin {parse : String → Option Json} {reg : ToolRegistry}
    {w w' : WorkflowState} {a : Action} (hs : w.next parse reg a = some w') :
    w.session.SameOrigin w'.session := by
  obtain ⟨s, s', l, rfl, rfl, rfl, hs'⟩ | ⟨s, s', l, rfl, rfl, rfl, hs'⟩ | ⟨s, s', rfl, rfl, hs'⟩ :=
    next_cases hs
  · cases hs' <;> exact ⟨rfl, rfl⟩
  · cases hs'
    case exitNext e _ _ | exitLast e _ => cases e <;> exact ⟨rfl, rfl⟩
    all_goals exact ⟨rfl, rfl⟩
  · cases a with
    | main l =>
      cases MapReduceWorkflow.mainMoves_of_next hs'
      case exitNext e _ _ | exitLast e _ => cases e <;> exact ⟨rfl, rfl⟩
      all_goals exact ⟨rfl, rfl⟩
    | sub i l => cases MapReduceWorkflow.subMoves_of_next hs' <;> exact ⟨rfl, rfl⟩

namespace SessionTask

/-- The session is as far as the task is. -/
def Outcome : State → Prop
  | .queued x | .create x => x.state.terminal = false ∧ x.Blank
  | .running w | .finished w => w.Outcome

variable {parse : String → Option Json} {reg : ToolRegistry} {kind : WorkflowKind}
  {s s' : State} {l : Label}

theorem session_cancel (s : State) :
    (s.mapSession cancelRequest).session = cancelRequest s.session := by
  cases s with
  | queued x | create x => rfl
  | running w | finished w => cases w <;> rfl

theorem Outcome.cancel (ho : Outcome s) : Outcome (s.mapSession cancelRequest) := by
  cases s with
  | queued x | create x => exact ho
  | running w | finished w => exact WorkflowState.Outcome.cancel ho

/-- A session in a terminal state has the result that goes with it. -/
theorem Outcome.settled (ho : Outcome s) (hterm : s.session.isTerminal) :
    s.session.Settled s.session.state := by
  cases s with
  | queued x | create x => exact absurd hterm (SessionState.not_terminal ho.1)
  | running w | finished w => exact WorkflowState.Outcome.settled ho hterm

/-- **Step of the outcome.** What has been settled stays. -/
theorem Outcome.step (ho : Outcome s) (hs : next parse reg kind s l = some s') :
    Outcome s' ∧ s.session.SameOrigin s'.session ∧
      (s.session.isTerminal → s.session.Agrees s'.session) := by
  cases l with
  | cancel =>
    simp only [next, Option.some.injEq] at hs
    subst hs
    rw [session_cancel]
    exact ⟨ho.cancel, ⟨rfl, rfl⟩, fun _ => ⟨rfl, rfl, rfl⟩⟩
  | task =>
    cases s <;> simp only [next, Option.some.injEq, reduceCtorEq] at hs
    case queued x =>
      subst hs
      exact ⟨⟨rfl, ho.2⟩, ⟨rfl, rfl⟩, fun hterm => absurd hterm (SessionState.not_terminal ho.1)⟩
    case create x =>
      subst hs
      refine ⟨WorkflowState.outcome_start kind ho.1 ho.2, ?_, ?_⟩
      · cases kind <;> exact ⟨rfl, rfl⟩
      · intro hterm
        exact absurd hterm (SessionState.not_terminal ho.1)
    case running w =>
      simp only [Option.ite_none_right_eq_some, Option.some.injEq] at hs
      obtain ⟨-, rfl⟩ := hs
      exact ⟨ho, ⟨rfl, rfl⟩, fun _ => .refl _⟩
  | work a =>
    cases s <;> simp only [next, Option.map_eq_some_iff, reduceCtorEq] at hs
    case running w | finished w =>
      obtain ⟨w', hw, rfl⟩ := hs
      exact ⟨WorkflowState.Outcome.step ho hw, WorkflowState.sameOrigin hw,
        fun hterm => WorkflowState.Outcome.agrees ho hterm hw⟩

/-- The plan steps or sub-tasks the LLM has given. -/
def State.planned : State → ℕ
  | .queued _ | .create _ => 0
  | .running w | .finished w => w.planned

/-- The counter is as far as the task is. -/
def Counts : State → Prop
  | .queued x | .create x => x.Fresh
  | .running w | .finished w => w.Counts

theorem planned_cancel (s : State) : (s.mapSession cancelRequest).planned = s.planned := by
  cases s with
  | queued x | create x => rfl
  | running w | finished w => cases w <;> rfl

theorem Counts.cancel (hc : Counts s) : Counts (s.mapSession cancelRequest) := by
  cases s with
  | queued x | create x => exact ⟨hc.state, hc.stepCount, hc.blank, hc.maxIterations⟩
  | running w | finished w => exact WorkflowState.Counts.cancel hc

/-- With fewer than 2^32 plan steps or sub-tasks the counter never goes
    back. -/
theorem Counts.step (ho : Outcome s) (hc : Counts s) (hs : next parse reg kind s l = some s') :
    Counts s' ∧ (s'.planned < 2 ^ 32 →
      s.planned < 2 ^ 32 ∧ s.session.stepCount ≤ s'.session.stepCount) := by
  cases l with
  | cancel =>
    simp only [next, Option.some.injEq] at hs
    subst hs
    rw [session_cancel, planned_cancel]
    exact ⟨hc.cancel, fun hn => ⟨hn, le_rfl⟩⟩
  | task =>
    cases s <;> simp only [next, Option.some.injEq, reduceCtorEq] at hs
    case queued x =>
      subst hs
      exact ⟨⟨rfl, hc.stepCount, hc.blank, hc.maxIterations⟩, fun hn => ⟨hn, le_rfl⟩⟩
    case create x =>
      subst hs
      refine ⟨WorkflowState.counts_start kind hc, fun _ => ⟨by simp [State.planned], ?_⟩⟩
      cases kind <;> exact le_rfl
    case running w =>
      simp only [Option.ite_none_right_eq_some, Option.some.injEq] at hs
      obtain ⟨-, rfl⟩ := hs
      exact ⟨hc, fun hn => ⟨hn, le_rfl⟩⟩
  | work a =>
    cases s <;> simp only [next, Option.map_eq_some_iff, reduceCtorEq] at hs
    case running w | finished w =>
      obtain ⟨w', hw, rfl⟩ := hs
      exact WorkflowState.Counts.step ho hc hw

end SessionTask

/-! ### Runs -/

namespace WorkflowRun

structure State where
  workflow : WorkflowState
  /-- The states stored in `session.state`, oldest first. -/
  stores : List SessionState
  /-- The values of `step_count` after every step, oldest first. -/
  counts : List ℕ
  deriving DecidableEq

inductive Label where
  /-- `cancel_requested.store(true)`. -/
  | cancel
  /-- The workflow takes a step. -/
  | work (a : Action)
  deriving DecidableEq

/-- The step function. -/
def next (parse : String → Option Json) (reg : ToolRegistry) (s : State) : Label → Option State
  | .cancel => some { s with workflow := s.workflow.mapSession SessionTask.cancelRequest }
  | .work a => (s.workflow.next parse reg a).map fun w => {
      workflow := w
      stores := s.stores ++ (s.workflow.store a).toList
      counts := s.counts ++ [w.session.stepCount] }

/-- The start of `run`. -/
def start (kind : WorkflowKind) (x : Session) : State := ⟨.start kind x, [], [x.stepCount]⟩

/-- `wf->run(x)` of a workflow of that kind. -/
def system (parse : String → Option Json) (reg : ToolRegistry) (kind : WorkflowKind)
    (x : Session) : System State Label :=
  System.ofNext (start kind x) (next parse reg)

/-- The states stored so far by a run that has come to the state `st`:
    none of them is terminal, except the last when `st` is. -/
def Stored (stores : List SessionState) (st : SessionState) : Prop :=
  (st.terminal = false ∧ ∀ st' ∈ stores, st'.terminal = false) ∨
    (st.terminal ∧ ∃ before, stores = before ++ [st] ∧ ∀ st' ∈ before, st'.terminal = false)

/-- Storing finds no terminal state, so that a terminal state is the last
    one stored. -/
theorem Stored.store {stores : List SessionState} {x x' : Session} {store : Option SessionState}
    (h : Stored stores x.state) (hstore : StoreOk store x x') :
    Stored (stores ++ store.toList) x'.state := by
  cases store with
  | none =>
    have hst : x'.state = x.state := hstore
    simpa [hst] using h
  | some st =>
    obtain ⟨hst, hgoing⟩ := hstore
    rcases h with ⟨-, hall⟩ | ⟨hterm, -⟩
    · by_cases hfinal : st.terminal
      · exact .inr ⟨hst ▸ hfinal, stores, by simp [hst], hall⟩
      · refine .inl ⟨by simpa [hst] using hfinal, ?_⟩
        intro st' hmem
        rcases List.mem_append.mp hmem with hmem | hmem
        · exact hall st' hmem
        · simp only [Option.toList_some, List.mem_singleton] at hmem
          simpa [hmem] using hfinal
    · exact absurd hterm (SessionState.not_terminal hgoing)

/-- The invariant of `run`. -/
structure Inv (s : State) : Prop where
  outcome : s.workflow.Outcome
  counts : s.workflow.Counts
  stored : Stored s.stores s.workflow.session.state
  sorted : s.workflow.planned < 2 ^ 32 →
    s.counts.Pairwise (· ≤ ·) ∧ ∀ k ∈ s.counts, k ≤ s.workflow.session.stepCount

variable {parse : String → Option Json} {reg : ToolRegistry} {kind : WorkflowKind} {x : Session}
  {s s' : State} {l : Label}

theorem inv_start (hx : x.Fresh) : Inv (start kind x) where
  outcome := WorkflowState.outcome_start kind hx.state hx.blank
  counts := WorkflowState.counts_start kind hx
  stored := by
    refine .inl ⟨?_, by simp [start]⟩
    cases kind <;> exact hx.state
  sorted := by
    intro _
    refine ⟨by simp [start], ?_⟩
    intro k hk
    simp only [start, List.mem_singleton] at hk
    subst hk
    cases kind <;> exact le_rfl

/-- **Invariant step.** -/
theorem Inv.step (hi : Inv s) (hs : next parse reg s l = some s') : Inv s' := by
  cases l with
  | cancel =>
    simp only [next, Option.some.injEq] at hs
    subst hs
    have hsession : (s.workflow.mapSession SessionTask.cancelRequest).session =
        SessionTask.cancelRequest s.workflow.session := by
      cases s.workflow <;> rfl
    have hplanned : (s.workflow.mapSession SessionTask.cancelRequest).planned =
        s.workflow.planned := by
      cases s.workflow <;> rfl
    refine ⟨hi.outcome.cancel, hi.counts.cancel, ?_, ?_⟩
    · rw [hsession]
      exact hi.stored
    · rw [hsession, hplanned]
      exact hi.sorted
  | work a =>
    simp only [next, Option.map_eq_some_iff] at hs
    obtain ⟨w', hw, rfl⟩ := hs
    obtain ⟨hcounts, hmono⟩ := hi.counts.step hi.outcome hw
    refine ⟨hi.outcome.step hw, hcounts, hi.stored.store (WorkflowState.storeOk hi.outcome.inv hw),
      ?_⟩
    intro hn
    obtain ⟨hn', hle⟩ := hmono hn
    obtain ⟨hsorted, hbound⟩ := hi.sorted hn'
    -- the new value is at least the last one, which bounds all before it
    refine ⟨?_, ?_⟩
    · rw [List.pairwise_append]
      refine ⟨hsorted, by simp, ?_⟩
      intro k hk k' hk'
      rw [List.mem_singleton.mp hk']
      exact (hbound k hk).trans hle
    · intro k hk
      rcases List.mem_append.mp hk with hk | hk
      · exact (hbound k hk).trans hle
      · exact (List.mem_singleton.mp hk).le

theorem inv_run {tr : List Label} (hx : x.Fresh)
    (hrun : (system parse reg kind x).Run tr s) : Inv s := by
  apply hrun.invariant (P := Inv)
  · intro s hinit
    have hs : s = start kind x := hinit
    subst hs
    exact inv_start hx
  · intro s l s' hi hs
    exact hi.step hs

/-- **What a run that returns has done.** It stored a terminal state once,
    and last; its result, the final state and the result fields of the
    session go together. The counter of the session never went back if
    the LLM gave fewer than 2^32 plan steps or sub-tasks. -/
theorem run_outcome {tr : List Label} (hx : x.Fresh)
    (hrun : (system parse reg kind x).Run tr s) (hret : s.workflow.isReturned) :
    (s.workflow.session.isTerminal ∧ ∃ before, s.stores = before ++ [s.workflow.session.state] ∧
      ∀ st ∈ before, st.terminal = false) ∧
    (s.workflow.planned < 2 ^ 32 → s.counts.Pairwise (· ≤ ·)) ∧
    (s.workflow.result.success ↔ s.workflow.session.state = .completed) ∧
    (s.workflow.result.success →
      s.workflow.result.answer = s.workflow.session.finalAnswer ∧
        s.workflow.result.answer ≠ "" ∧ s.workflow.result.error = "" ∧
        s.workflow.session.error = "") ∧
    (¬s.workflow.result.success →
      s.workflow.result.error = s.workflow.session.error ∧
        s.workflow.result.error ≠ "" ∧ s.workflow.session.finalAnswer = "") := by
  have hi := inv_run hx hrun
  obtain ⟨hterm, hreports⟩ := hi.outcome.reports hret
  have hsettled := hi.outcome.settled hterm
  refine ⟨⟨hterm, ?_⟩, fun hn => (hi.sorted hn).1, ?_⟩
  · rcases hi.stored with ⟨hgoing, -⟩ | ⟨-, hstored⟩
    · exact absurd hterm (SessionState.not_terminal hgoing)
    · exact hstored
  · unfold WorkflowResult.Reports at hreports
    unfold Session.Settled at hsettled
    by_cases hst : s.workflow.session.state = .completed
    · rw [if_pos hst] at hreports hsettled
      obtain ⟨hsuccess, hanswer, herror⟩ := hreports
      refine ⟨by simp [hsuccess, hst], fun _ => ⟨hanswer, ?_, herror, hsettled.2⟩, ?_⟩
      · rw [hanswer]
        exact hsettled.1
      · intro hfail
        exact absurd hsuccess hfail
    · rw [if_neg hst] at hreports hsettled
      obtain ⟨hfail, herror⟩ := hreports
      refine ⟨by simp [hfail, hst], by simp [hfail], fun _ => ⟨herror, ?_, hsettled.2⟩⟩
      rw [herror]
      exact hsettled.1

/-- The LLM answers the question of a fresh session, which is cancelled
    too late. -/
def answered : List Label :=
  [.work (.main .tau), .work (.main .tau), .work (.main .tau), .work (.main (.now 1)),
    .work (.main .tau), .work (.main .tau), .work (.main .tau), .cancel,
    .work (.main (.reply { message := { role := "assistant", content := "4" } })),
    .work (.main .tau), .work (.main .tau), .work (.main .tau), .work (.main .tau)]

theorem answered_outcome :
    ∃ s, (system (fun _ => none) ⟨[]⟩ .react (SessionTask.question.newSession 1 0)).Run answered s ∧
      s.workflow.isReturned ∧ s.workflow.session.isTerminal ∧ s.counts.Pairwise (· ≤ ·) := by
  have hends : (System.exec (next (fun _ => none) ⟨[]⟩)
      (start .react (SessionTask.question.newSession 1 0)) answered).map
      (fun s => (s.workflow.isReturned, s.workflow.planned)) = some (true, 0) := by decide
  obtain ⟨s, hrun, hends⟩ := System.exists_run_of_exec hends
  simp only [Prod.mk.injEq] at hends
  have hfresh : (SessionTask.question.newSession 1 0).Fresh := ⟨rfl, rfl, ⟨rfl, rfl⟩, by decide⟩
  have houtcome := run_outcome hfresh hrun hends.1
  exact ⟨s, hrun, hends.1, houtcome.1.1, houtcome.2.1 (by omega)⟩

/-! ### A Plan That Is Too Long -/

/-- The text of a plan of `n` steps without a description. -/
def emptySteps (n : ℕ) : String :=
  "\x7b\"steps\": [" ++ String.intercalate ", " (List.replicate n "\x7b\x7d") ++ "]\x7d"

/-- The JSON parser on that text, and on what is no JSON. -/
def parseSteps (n : ℕ) (text : String) : Option Json :=
  if text = emptySteps n then
    some (.object [("steps", .array (List.replicate n (.object [])))])
  else none

/-- A session whose plan steps fail at once. -/
def noIterations : Session := Session.new 1 { maxIterations := 0 } 0

theorem readEntries_empty (content : String) (n : ℕ) (read : List (ℤ × String)) :
    (Workflow.readEntries content (List.replicate n (.object [])) read).length =
      read.length + n := by
  induction n generalizing read with
  | zero => rfl
  | succ n ih =>
    rw [List.replicate_succ]
    show (Workflow.readEntries content _ (read ++ [_])).length = _
    rw [ih, List.length_append, List.length_singleton]
    omega

theorem generatePlan_empty (n : ℕ) :
    (PlanExecuteWorkflow.generatePlan (parseSteps n)
      { message := { role := "assistant", content := emptySteps n } }).length = n := by
  simp [PlanExecuteWorkflow.generatePlan, Workflow.parseEntries, parseSteps, Json.field?,
    readEntries_empty]

/-- What gets the plan. -/
def planActions (n : ℕ) : List Action :=
  [.main .tau, .main .tau,
    .main (.reply { message := { role := "assistant", content := emptySteps n } }), .main .tau]

/-- What counts a plan step, and ends the run of its session at once. -/
def planStepActions : List Action :=
  [.main .tau, .main .tau, .main (.now 0), .main .tau, .main .tau, .main .tau, .main .tau,
    .main .tau, .main .tau, .main .tau]

/-- The run is before plan step `i` of `n`. -/
structure PlanHead (n i : ℕ) (p : PlanExecuteWorkflow.State) : Prop where
  pc : p.pc = .stepHead i
  steps : p.steps.length = n
  cancelRequested : p.session.cancelRequested = false
  maxIterations : p.session.config.maxIterations = 0
  stepCount : p.session.stepCount = i % 2 ^ 32

/-- A step of a plan is one of the run that is recorded. -/
theorem next_planExecute {parse : String → Option Json} {reg : ToolRegistry}
    {p p' : PlanExecuteWorkflow.State} {l : Workflow.Label}
    (hs : PlanExecuteWorkflow.next parse reg p l = some p') (stores : List SessionState)
    (counts : List ℕ) : ∃ stores',
    next parse reg ⟨.planExecute p, stores, counts⟩ (.work (.main l)) =
      some ⟨.planExecute p', stores', counts ++ [p'.session.stepCount]⟩ := by
  refine ⟨stores ++ (WorkflowState.store (.planExecute p) (.main l)).toList, ?_⟩
  simp only [next, WorkflowState.next, hs, Option.map_some]
  rfl

theorem exec_planExecute {parse : String → Option Json} {reg : ToolRegistry}
    {p p' : PlanExecuteWorkflow.State} {l : Workflow.Label} {ls : List Workflow.Label}
    (hexec : System.exec (PlanExecuteWorkflow.next parse reg) p (l :: ls) = some p')
    (stores : List SessionState) (counts : List ℕ) : ∃ stores' tail,
    System.exec (next parse reg) ⟨.planExecute p, stores, counts⟩
      ((l :: ls).map fun l => .work (.main l)) =
        some ⟨.planExecute p', stores', counts ++ tail⟩ ∧ p'.session.stepCount ∈ tail := by
  induction ls generalizing p l stores counts with
  | nil =>
    obtain ⟨p₁, hfirst, hlast⟩ := Option.bind_eq_some_iff.mp hexec
    obtain rfl : p₁ = p' := Option.some.inj hlast
    obtain ⟨stores₁, hstep⟩ := next_planExecute hfirst stores counts
    refine ⟨stores₁, [p₁.session.stepCount], ?_, List.mem_singleton_self _⟩
    show (next parse reg _ _).bind _ = _
    rw [hstep]
    rfl
  | cons l' ls ih =>
    obtain ⟨p₁, hfirst, hrest⟩ := Option.bind_eq_some_iff.mp hexec
    obtain ⟨stores₁, hstep⟩ := next_planExecute hfirst stores counts
    obtain ⟨stores', tail, hrest', hmem⟩ := ih hrest stores₁ (counts ++ [p₁.session.stepCount])
    refine ⟨stores', p₁.session.stepCount :: tail, ?_, List.mem_cons_of_mem _ hmem⟩
    rw [List.append_assoc] at hrest'
    show (next parse reg _ _).bind _ = _
    rw [hstep]
    exact hrest'

/-- The plan is accepted. -/
theorem exec_plan {n : ℕ} (hn : 0 < n) (hcancel : x.cancelRequested = false)
    (hmax : x.config.maxIterations = 0) (hcount : x.stepCount = 0) : ∃ p stores counts,
    System.exec (next (parseSteps n) ⟨[]⟩) (start .planExecute x) ((planActions n).map .work) =
      some ⟨.planExecute p, stores, counts⟩ ∧ PlanHead n 0 p ∧ 0 ∈ counts := by
  let r : LLMResponse := { message := { role := "assistant", content := emptySteps n } }
  have hlen : (PlanExecuteWorkflow.generatePlan (parseSteps n) r).length = n :=
    generatePlan_empty n
  have hne : PlanExecuteWorkflow.generatePlan (parseSteps n) r ≠ [] := by
    intro hnil
    rw [hnil, List.length_nil] at hlen
    omega
  have hreply : PlanExecuteWorkflow.next (parseSteps n) ⟨[]⟩
      ⟨.planGet, { x with state := .waitingForLlm }, {}, []⟩ (.reply r) =
      some ⟨.storeExecuting, { x with state := .waitingForLlm }, {},
        PlanExecuteWorkflow.generatePlan (parseSteps n) r⟩ := by
    show some (PlanExecuteWorkflow.State.mk (if _ = [] then _ else _) _ _ _) = _
    rw [if_neg hne]
    rfl
  have hexec : System.exec (PlanExecuteWorkflow.next (parseSteps n) ⟨[]⟩)
      (PlanExecuteWorkflow.start x) [.tau, .tau, .reply r, .tau] =
      some ⟨.stepHead 0, { x with state := .executingTools }, {},
        PlanExecuteWorkflow.generatePlan (parseSteps n) r⟩ := by
    have hbefore : System.exec (PlanExecuteWorkflow.next (parseSteps n) ⟨[]⟩)
        (PlanExecuteWorkflow.start x) [.tau, .tau] =
        some ⟨.planGet, { x with state := .waitingForLlm }, {}, []⟩ := rfl
    refine (System.exec_append hbefore).trans ?_
    simp only [System.exec, hreply, Option.bind_some]
    rfl
  obtain ⟨stores, tail, hrun, hmem⟩ := exec_planExecute hexec [] [x.stepCount]
  refine ⟨_, stores, _, hrun, ⟨rfl, hlen, hcancel, hmax, hcount⟩, ?_⟩
  rw [← hcount]
  exact List.mem_cons_self

/-- The run of a plan step ends at once if there are no iterations. -/
theorem exec_runSub {parse : String → Option Json} {reg : ToolRegistry}
    (hmax : x.config.maxIterations = 0) (i : ℕ) (description : String) (res : WorkflowResult)
    (steps : List PlanExecuteWorkflow.Step) : ∃ sub, sub.pc = .returned ∧
    System.exec (PlanExecuteWorkflow.next parse reg)
      ⟨.runSub i (ReActWorkflow.start (x.newSub description 0)), x, res, steps⟩
      [.tau, .tau, .tau, .tau, .tau, .tau] = some ⟨.runSub i sub, x, res, steps⟩ := by
  obtain ⟨y, rfl⟩ : ∃ y : Session, x = { y with config := { y.config with maxIterations := 0 } } :=
    ⟨x, by rw [← hmax]⟩
  refine ⟨_, ?_, rfl⟩
  rfl

/-- A plan step is counted, and the run of its session ends at once. -/
theorem PlanHead.exec {n i : ℕ} {p : PlanExecuteWorkflow.State} (h : PlanHead n i p) (hi : i < n)
    (stores : List SessionState) (counts : List ℕ) : ∃ p' stores' tail,
    System.exec (next (parseSteps n) ⟨[]⟩) ⟨.planExecute p, stores, counts⟩
      (planStepActions.map .work) = some ⟨.planExecute p', stores', counts ++ tail⟩ ∧
    PlanHead n (i + 1) p' ∧ (i + 1) % 2 ^ 32 ∈ tail := by
  obtain ⟨hpc, hlen, hcancel, hmax, hcount⟩ := h
  obtain ⟨pc, x, res, steps⟩ := p
  simp only at hpc hlen hcancel hmax hcount
  subst hpc
  have hi' : i < steps.length := hlen.symm ▸ hi
  have hstep : steps[i]? = some steps[i] := List.getElem?_eq_getElem hi'
  obtain ⟨sub, hret, hsub⟩ := @exec_runSub x.countStep (parseSteps n) ⟨[]⟩ hmax i
    steps[i].description res steps
  have hhead : PlanExecuteWorkflow.next (parseSteps n) ⟨[]⟩ ⟨.stepHead i, x, res, steps⟩ .tau =
      some ⟨.countStep i, x, res, steps⟩ := by
    simp only [PlanExecuteWorkflow.next, hi', hcancel, if_true, Bool.false_eq_true, if_false]
  have hcreate : PlanExecuteWorkflow.next (parseSteps n) ⟨[]⟩
      ⟨.createSub i, x.countStep, res, steps⟩ (.now 0) =
      some ⟨.runSub i (ReActWorkflow.start (x.countStep.newSub steps[i].description 0)),
        x.countStep, res, steps⟩ := by
    simp only [PlanExecuteWorkflow.next, hstep]
  have hreturned : PlanExecuteWorkflow.next (parseSteps n) ⟨[]⟩
      ⟨.runSub i sub, x.countStep, res, steps⟩ .tau =
      some ⟨.stepHead (i + 1), x.countStep,
        res.addTokens sub.result.totalPromptTokens sub.result.totalCompletionTokens,
        steps.set i { steps[i] with result := PlanExecuteWorkflow.stepText sub.result }⟩ := by
    simp only [PlanExecuteWorkflow.next, hret, if_true, hstep]
  have hcountStep : PlanExecuteWorkflow.next (parseSteps n) ⟨[]⟩ ⟨.countStep i, x, res, steps⟩
      .tau = some ⟨.createSub i, x.countStep, res, steps⟩ := rfl
  have hbefore : System.exec (PlanExecuteWorkflow.next (parseSteps n) ⟨[]⟩)
      ⟨.stepHead i, x, res, steps⟩ [.tau, .tau, .now 0] =
      some ⟨.runSub i (ReActWorkflow.start (x.countStep.newSub steps[i].description 0)),
        x.countStep, res, steps⟩ := by
    simp only [System.exec, hhead, hcountStep, hcreate, Option.bind_some]
  have hafter : System.exec (PlanExecuteWorkflow.next (parseSteps n) ⟨[]⟩)
      ⟨.runSub i sub, x.countStep, res, steps⟩ [.tau] =
      some ⟨.stepHead (i + 1), x.countStep,
        res.addTokens sub.result.totalPromptTokens sub.result.totalCompletionTokens,
        steps.set i { steps[i] with result := PlanExecuteWorkflow.stepText sub.result }⟩ := by
    simp only [System.exec, hreturned, Option.bind_some]
  obtain ⟨stores', tail, hrun, hmem⟩ := exec_planExecute
    ((System.exec_append hbefore).trans ((System.exec_append hsub).trans hafter)) stores counts
  have hcount' : x.countStep.stepCount = (i + 1) % 2 ^ 32 := by
    show (x.stepCount + 1) % 2 ^ 32 = _
    rw [hcount, Nat.mod_add_mod]
  refine ⟨_, stores', tail, hrun, ⟨rfl, ?_, hcancel, hmax, hcount'⟩, ?_⟩
  · rw [List.length_set]
    exact hlen
  · rw [← hcount']
    exact hmem

/-- The run has come to plan step `i` of `n`, and counted the step before. -/
def AtStep (n i : ℕ) : Prop :=
  ∃ tr p stores counts,
    (system (parseSteps n) ⟨[]⟩ .planExecute noIterations).Run tr ⟨.planExecute p, stores, counts⟩ ∧
      p.pc = .stepHead i ∧ p.steps.length = n ∧ p.session.cancelRequested = false ∧
      p.session.config.maxIterations = 0 ∧ p.session.stepCount = i % 2 ^ 32 ∧
      i % 2 ^ 32 ∈ counts ∧ (0 < i → [(i - 1) % 2 ^ 32, i % 2 ^ 32].Sublist counts)

/-- The plan is accepted. -/
theorem atStep_zero {n : ℕ} (hn : 0 < n) : AtStep n 0 := by
  obtain ⟨p, stores, counts, hexec, ⟨hpc, hsteps, hcancel, hmax, hcount⟩, hmem⟩ :=
    @exec_plan noIterations n hn rfl rfl rfl
  exact ⟨_, p, stores, counts, System.run_of_exec hexec, hpc, hsteps, hcancel, hmax, hcount, hmem,
    by simp⟩

/-- A plan step is counted. -/
theorem AtStep.succ {n i : ℕ} (h : AtStep n i) (hi : i < n) : AtStep n (i + 1) := by
  obtain ⟨tr, p, stores, counts, hrun, hpc, hlen, hcancel, hmax, hcount, hmem, -⟩ := h
  obtain ⟨p', stores', tail, hexec, ⟨hpc', hsteps, hcancel', hmax', hcount'⟩, htail⟩ :=
    PlanHead.exec ⟨hpc, hlen, hcancel, hmax, hcount⟩ hi stores counts
  refine ⟨_, p', stores', counts ++ tail, hrun.exec_append hexec, hpc', hsteps, hcancel', hmax',
    hcount', List.mem_append_right _ htail, ?_⟩
  intro _
  exact (List.singleton_sublist.mpr hmem).append (List.singleton_sublist.mpr htail)

/-- After the last plan step the LLM gives the answer. -/
theorem AtStep.returns {n : ℕ} (h : AtStep n n) (hn : 0 < n) : ∃ tr s,
    (system (parseSteps n) ⟨[]⟩ .planExecute noIterations).Run tr s ∧ s.workflow.isReturned ∧
      [(n - 1) % 2 ^ 32, n % 2 ^ 32].Sublist s.counts := by
  obtain ⟨tr, ⟨pc, x, res, steps⟩, stores, counts, hrun, hpc, hlen, -, -, -, -, hsub⟩ := h
  simp only at hpc hlen
  subst hpc
  let answer : LLMResponse := { message := { role := "assistant", content := "4" } }
  have hhead : PlanExecuteWorkflow.next (parseSteps n) ⟨[]⟩ ⟨.stepHead n, x, res, steps⟩ .tau =
      some ⟨.storeSynthesizing, x, res, steps⟩ := by
    simp only [PlanExecuteWorkflow.next, hlen, lt_irrefl, if_false]
  obtain ⟨p, hpc, hexec⟩ : ∃ p, p.pc = .returned ∧
      System.exec (PlanExecuteWorkflow.next (parseSteps n) ⟨[]⟩) ⟨.stepHead n, x, res, steps⟩
        [.tau, .tau, .tau, .reply answer, .tau, .tau, .tau] = some p := by
    simp only [System.exec, hhead, Option.bind_some]
    refine ⟨_, ?_, rfl⟩
    rfl
  obtain ⟨stores', tail, hexec', -⟩ := exec_planExecute hexec stores counts
  have hrun' := hrun.exec_append hexec'
  exact ⟨_, _, hrun', by simp [WorkflowState.isReturned, hpc],
    (hsub hn).trans (List.sublist_append_left _ _)⟩

theorem noIterations_fresh : noIterations.Fresh := ⟨rfl, rfl, ⟨rfl, rfl⟩, by decide⟩

/-- The counter of a plan of 2^32 steps starts anew with the last one. -/
theorem long_plan_wraps :
    ¬ ∀ (parse : String → Option Json) (reg : ToolRegistry) (kind : WorkflowKind) (x : Session)
      (tr : List Label) (s : State), x.Fresh → (system parse reg kind x).Run tr s →
      s.workflow.isReturned → s.counts.Pairwise (· ≤ ·) := by
  intro hall
  have hreach : ∀ i ≤ 2 ^ 32, AtStep (2 ^ 32) i := by
    intro i
    induction i with
    | zero =>
      intro _
      exact atStep_zero (by omega)
    | succ i ih =>
      intro hle
      exact (ih (by omega)).succ (by omega)
  obtain ⟨tr, s, hrun, hret, hsub⟩ := (hreach _ le_rfl).returns (by omega)
  have hsorted := (hall _ _ _ _ _ _ noIterations_fresh hrun hret).sublist hsub
  rw [List.pairwise_pair] at hsorted
  omega

end WorkflowRun

end Forge
