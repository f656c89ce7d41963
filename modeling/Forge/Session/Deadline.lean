import Forge.Session.ToolFilter
import Forge.Session.WorkflowEnd

/-! # The Deadline of a Session

  `wf->run(session)` under a clock. A unit of work is an iteration of a
  ReAct run, a plan step or a sub-task; each of them has a guard in front.
  The guard of an iteration reads the clock, and compares it with the
  deadline of the session that ReAct run is on. Plan steps and sub-tasks
  run on sessions of their own.

  - `guard?`: the steps that evaluate the guard of a unit;
  - `Punctual`: no unit passes its guard after the deadline;
  - `punctual_iff`: the runs that are punctual.
-/

namespace Forge

open LTS

open Workflow (Label)

open MapReduceWorkflow (Action)

/-! ### Guards -/

namespace ReActWorkflow

/-- Whether the step evaluates the last guard of an iteration, and passes
    it. -/
def guard? (s s' : State) : Option Bool :=
  match s.pc with
  | .checkTimeout => some (s'.pc = .storeWaiting)
  | _ => none

/-- `run` is on the way to `FAILED`. -/
def Failing (s : State) : Prop :=
  match s.pc with
  | .setError _ final | .storeFinal final => final = .failed
  | .finish | .returned => s.session.state = .failed
  | _ => False

variable {reg : ToolRegistry} {s s' : State} {l : Label}

theorem deadline_eq (hs : Moves reg s l s') : s'.session.deadline = s.session.deadline := by
  cases hs <;> rfl

theorem Failing.step (hf : Failing s) (hs : Moves reg s l s') : Failing s' := by
  cases hs
  case setError | storeFinal | finish => exact hf
  -- `run` fails at no other statement
  all_goals exact hf.elim

/-- An iteration passes the guard if it is in time, and `run` fails
    otherwise. -/
theorem guard_cases {b : Bool} (hs : Moves reg s l s') (hguard : guard? s s' = some b) :
    ∃ t, l = .now t ∧ (b = true ∧ t ≤ s.session.deadline ∨ b = false ∧ Failing s') := by
  cases hs <;> simp only [guard?, reduceCtorEq, Option.some.injEq] at hguard
  case timedOut t hlt =>
    refine ⟨t, rfl, .inr ⟨?_, rfl⟩⟩
    simpa using hguard.symm
  case inTime t hle =>
    refine ⟨t, rfl, .inl ⟨?_, hle⟩⟩
    simpa using hguard.symm

end ReActWorkflow

namespace PlanExecuteWorkflow

/-- Whether the step evaluates the guard of a plan step that `run` is not
    cancelled at, or of an iteration inside one, and passes it. -/
def guard? (s s' : State) : Option Bool :=
  match s.pc, s'.pc with
  | .stepHead _, .countStep _ => some true
  | .runSub _ sub, .runSub _ sub' => ReActWorkflow.guard? sub sub'
  | _, _ => none

/-- `run` is cancelled, and no plan step has been started. -/
structure Halted (s : State) : Prop where
  requested : s.session.cancelRequested = true
  step : s.pc.step? = none

theorem Halted.next {parse : String → Option Json} {reg : ToolRegistry} {s s' : State} {l : Label}
    (hh : Halted s) (hs : Moves parse reg s l s') : Halted s' ∧ guard? s s' = none := by
  obtain ⟨hflag, hstep⟩ := hh
  cases hs
  case notCancelled hdown => simp_all
  case countStep | createSub | sub | subRaises | subReturned => cases hstep
  case exitNext e _ _ | exitLast e _ =>
    refine ⟨⟨?_, rfl⟩, rfl⟩
    cases e <;> exact hflag
  all_goals exact ⟨⟨hflag, rfl⟩, rfl⟩

end PlanExecuteWorkflow

namespace MapReduceWorkflow

/-- Whether the step of the `i`-th sub-task evaluates the guard of that
    sub-task, which is not cancelled at, or of an iteration inside it, and
    passes it. -/
def guard? (i : ℕ) (s s' : State) : Option Bool :=
  match s.subs[i]?, s'.subs[i]? with
  | some .checkCancel, some .countStep => some true
  | some (.runSub sub), some (.runSub sub') => ReActWorkflow.guard? sub sub'
  | _, _ => none

/-- The sub-task has not been started. -/
def SubPC.unstarted : SubPC → Bool
  | .pending | .checkCancel | .done _ => true
  | _ => false

/-- `run` is cancelled, and no sub-task has been started. -/
structure Halted (s : State) : Prop where
  requested : s.session.cancelRequested = true
  subs : ∀ pc ∈ s.subs, pc.unstarted

variable {parse : String → Option Json} {reg : ToolRegistry} {s s' : State} {l : Label}

theorem Halted.set {i : ℕ} {pc : SubPC} (hh : Halted s) (hpc : pc.unstarted) :
    ∀ pc' ∈ s.subs.set i pc, pc'.unstarted := by
  intro pc' hmem
  rcases List.mem_or_eq_of_mem_set hmem with hold | rfl
  · exact hh.subs pc' hold
  · exact hpc

theorem Halted.main (hh : Halted s) (hs : MainMoves parse s l s') : Halted s' := by
  have hset : ∀ i, ∀ pc ∈ s.subs.set i .checkCancel, pc.unstarted := fun i => hh.set rfl
  obtain ⟨hflag, hsubs⟩ := hh
  cases hs
  case noTasks => exact ⟨hflag, by simp⟩
  case decomposed => exact ⟨hflag, by simp [SubPC.unstarted]⟩
  case submit i hi => exact ⟨hflag, hset i⟩
  case exitNext e _ _ | exitLast e _ => exact ⟨by cases e <;> exact hflag, hsubs⟩
  all_goals exact ⟨hflag, hsubs⟩

theorem Halted.sub {i : ℕ} (hh : Halted s) (hs : SubMoves reg i s l s') :
    Halted s' ∧ guard? i s s' = none := by
  cases hs
  case cancelled hpc hflag =>
    refine ⟨⟨hh.requested, hh.set rfl⟩, ?_⟩
    have hlt := (List.getElem?_eq_some_iff.mp hpc).1
    simp [guard?, hlt]
  case notCancelled hpc hdown =>
    have hflag := hh.requested
    simp_all
  -- no other sub-task takes a step
  case countStep hpc | createSub hpc _ | sub hpc _ _ | subRaises hpc _ _ | subReturned hpc _ =>
    cases hh.subs _ (List.mem_of_getElem? hpc)
  case addTokens hpc | writeResult hpc _ => cases hh.subs _ (List.mem_of_getElem? hpc)

end MapReduceWorkflow

/-! ### The Three Alike -/

namespace WorkflowState

/-- Whether the step from `w` to `w'` evaluates the guard of a unit, and
    passes it. -/
def guard? (w : WorkflowState) (a : Action) (w' : WorkflowState) : Option Bool :=
  match w, a, w' with
  | .react s, _, .react s' => ReActWorkflow.guard? s s'
  | .planExecute s, _, .planExecute s' => PlanExecuteWorkflow.guard? s s'
  | .mapReduce s, .sub i _, .mapReduce s' => MapReduceWorkflow.guard? i s s'
  | _, _, _ => none

/-- The run is cancelled before its first plan step or sub-task. -/
def Halted : WorkflowState → Prop
  | .react _ => False
  | .planExecute s => PlanExecuteWorkflow.Halted s
  | .mapReduce s => MapReduceWorkflow.Halted s

variable {parse : String → Option Json} {reg : ToolRegistry} {w w' : WorkflowState} {a : Action}

theorem Halted.next (hh : w.Halted) (hs : w.next parse reg a = some w') :
    w'.Halted ∧ w.guard? a w' = none := by
  obtain ⟨s, s', l, rfl, rfl, rfl, hs'⟩ | ⟨s, s', l, rfl, rfl, rfl, hs'⟩ | ⟨s, s', rfl, rfl, hs'⟩ :=
    next_cases hs
  · exact hh.elim
  · exact PlanExecuteWorkflow.Halted.next hh hs'
  · cases a with
    | main l =>
      exact ⟨MapReduceWorkflow.Halted.main hh (MapReduceWorkflow.mainMoves_of_next hs'), rfl⟩
    | sub i l => exact MapReduceWorkflow.Halted.sub hh (MapReduceWorkflow.subMoves_of_next hs')

theorem Halted.cancel (hh : w.Halted) : (w.mapSession SessionTask.cancelRequest).Halted := by
  cases w with
  | react s => exact hh.elim
  | planExecute s => exact ⟨rfl, hh.step⟩
  | mapReduce s => exact ⟨rfl, hh.subs⟩

end WorkflowState

/-! ### Runs under a Clock -/

/-- A step that reads the clock reads `t`. -/
def MapReduceWorkflow.Action.readsAt (a : Action) (t : ℕ) : Bool := a.time?.all (· = t)

namespace TimedRun

structure State where
  workflow : WorkflowState
  /-- What the steady clock reads. -/
  clock : ℕ
  /-- The guards of units that have been evaluated, oldest first: the time
      and whether the unit passed. -/
  guards : List (ℕ × Bool)
  deriving DecidableEq

inductive Label where
  /-- `cancel_requested.store(true)`. -/
  | cancel
  /-- Time passes. -/
  | tick (d : ℕ)
  /-- The workflow takes a step. -/
  | work (a : Action)
  deriving DecidableEq

/-- The step function. -/
def next (parse : String → Option Json) (reg : ToolRegistry) (s : State) : Label → Option State
  | .cancel => some { s with workflow := s.workflow.mapSession SessionTask.cancelRequest }
  | .tick d => some { s with clock := s.clock + d }
  | .work a =>
      if a.readsAt s.clock then
        (s.workflow.next parse reg a).map fun w => {
          workflow := w
          clock := s.clock
          guards := s.guards ++ (s.workflow.guard? a w).toList.map fun b => (s.clock, b) }
      else none

/-- `wf->run(x)`, called at time `now`. -/
def system (parse : String → Option Json) (reg : ToolRegistry) (kind : WorkflowKind) (x : Session)
    (now : ℕ) : System State Label :=
  System.ofNext ⟨.start kind x, now, []⟩ (next parse reg)

/-- The step raises no exception. -/
def quiet (reg : ToolRegistry) (s : State) : Label → Prop
  | .work a => s.workflow.raises reg a = false
  | _ => True

/-- The workflow takes the step. -/
def Label.isWork : Label → Bool
  | .work _ => true
  | _ => false

/-- No unit of work has passed its guard after the deadline of `x`, and a
    run that needed one ends in `FAILED`. -/
structure Punctual (x : Session) (s : State) : Prop where
  inTime : ∀ t, (t, true) ∈ s.guards → t ≤ x.deadline
  fails : s.workflow.isReturned → (∃ g ∈ s.guards, x.deadline < g.1) →
    s.workflow.session.state = .failed

variable {parse : String → Option Json} {reg : ToolRegistry} {kind : WorkflowKind} {x : Session}
  {now : ℕ} {s s' : State} {l : Label} {tr : List Label}

theorem next_work {a : Action} (hs : next parse reg s (.work a) = some s') :
    a.readsAt s.clock ∧ s.workflow.next parse reg a = some s'.workflow ∧ s'.clock = s.clock ∧
      s'.guards =
        s.guards ++ (s.workflow.guard? a s'.workflow).toList.map fun b => (s.clock, b) := by
  simp only [next, Option.ite_none_right_eq_some, Option.map_eq_some_iff] at hs
  obtain ⟨hreads, w', hw, rfl⟩ := hs
  exact ⟨hreads, hw, rfl, rfl⟩

/-- A step of the workflow is one of the run. -/
theorem next_of_workflow {a : Action} {w : WorkflowState} (hreads : a.readsAt s.clock)
    (hw : s.workflow.next parse reg a = some w) :
    next parse reg s (.work a) = some ⟨w, s.clock, s.guards ++
      (s.workflow.guard? a w).toList.map fun b => (s.clock, b)⟩ := by
  simp [next, hreads, hw]

/-- A guard in the log of a step is an older one, or has just been
    evaluated. -/
theorem guard_split {a : Action} {g : ℕ × Bool} (hs : next parse reg s (.work a) = some s')
    (hg : g ∈ s'.guards) :
    g ∈ s.guards ∨ g.1 = s.clock ∧ s.workflow.guard? a s'.workflow = some g.2 := by
  obtain ⟨-, -, -, hguards⟩ := next_work hs
  rw [hguards] at hg
  rcases List.mem_append.mp hg with hold | hnew
  · exact .inl hold
  · simp only [List.mem_map, Option.mem_toList] at hnew
    obtain ⟨b, hb, rfl⟩ := hnew
    exact .inr ⟨rfl, hb⟩

/-! ### Runs That Are Over in Time -/

/-- No guard is evaluated ahead of the clock. -/
theorem guards_le_clock (hrun : (system parse reg kind x now).Run tr s) :
    ∀ g ∈ s.guards, g.1 ≤ s.clock := by
  apply hrun.invariant (P := fun s => ∀ g ∈ s.guards, g.1 ≤ s.clock)
  · rintro s rfl
    simp
  · intro s l s' hi hs g hg
    cases l with
    | cancel =>
      cases hs
      exact hi g hg
    | tick d =>
      cases hs
      exact (hi g hg).trans (Nat.le_add_right _ _)
    | work a =>
      obtain ⟨-, -, hclock, -⟩ := next_work hs
      rw [hclock]
      rcases guard_split hs hg with hold | ⟨hnew, -⟩
      · exact hi g hold
      · exact hnew.le

theorem punctual_of_clock_le (hrun : (system parse reg kind x now).Run tr s)
    (hle : s.clock ≤ x.deadline) : Punctual x s := by
  have hguards := guards_le_clock hrun
  refine ⟨fun t ht => (hguards _ ht).trans hle, ?_⟩
  intro _ hlate
  obtain ⟨g, hg, hlt⟩ := hlate
  have hg' := hguards g hg
  omega

/-! ### ReAct -/

/-- What holds of a ReAct run on `x`. -/
structure ReActInv (x : Session) (s : State) : Prop where
  react : ∃ r, s.workflow = .react r ∧ r.session.deadline = x.deadline ∧
    ((∃ g ∈ s.guards, x.deadline < g.1) → ReActWorkflow.Failing r)
  inTime : ∀ t, (t, true) ∈ s.guards → t ≤ x.deadline

theorem ReActInv.step (hi : ReActInv x s) (hs : next parse reg s l = some s') : ReActInv x s' := by
  obtain ⟨⟨r, hw, hdeadline, hlate⟩, htime⟩ := hi
  cases l with
  | cancel =>
    cases hs
    refine ⟨⟨{ r with session := SessionTask.cancelRequest r.session }, ?_, hdeadline, hlate⟩,
      htime⟩
    show s.workflow.mapSession SessionTask.cancelRequest = _
    rw [hw]
    rfl
  | tick d =>
    cases hs
    exact ⟨⟨r, hw, hdeadline, hlate⟩, htime⟩
  | work a =>
    obtain ⟨hreads, hnext, -, -⟩ := next_work hs
    rw [hw] at hnext
    obtain ⟨r₀, r', l, hr, rfl, hw', hmoves⟩ | ⟨_, _, _, hr, -⟩ | ⟨_, _, hr, -⟩ :=
      WorkflowState.next_cases hnext
    case inr.inl | inr.inr => cases hr
    cases hr
    -- a guard that is evaluated now compares the clock with the deadline
    have hnew : ∀ b, s.workflow.guard? (.main l) s'.workflow = some b →
        b = true ∧ s.clock ≤ x.deadline ∨ b = false ∧ ReActWorkflow.Failing r' := by
      intro b hb
      rw [hw, hw'] at hb
      obtain ⟨t, rfl, hcases⟩ := ReActWorkflow.guard_cases hmoves hb
      have ht : t = s.clock := by simpa [MapReduceWorkflow.Action.readsAt,
        MapReduceWorkflow.Action.time?] using hreads
      rw [← hdeadline, ← ht]
      exact hcases
    refine ⟨⟨r', hw', (ReActWorkflow.deadline_eq hmoves).trans hdeadline, ?_⟩, ?_⟩
    · intro hex
      obtain ⟨g, hg, hlt⟩ := hex
      rcases guard_split hs hg with hold | ⟨hclock, hguard⟩
      · exact (hlate ⟨g, hold, hlt⟩).step hmoves
      · rcases hnew _ hguard with ⟨-, hle⟩ | ⟨-, hfailing⟩
        · omega
        · exact hfailing
    · intro t ht
      rcases guard_split hs ht with hold | ⟨hclock, hguard⟩
      · exact htime t hold
      · rcases hnew _ hguard with ⟨-, hle⟩ | ⟨hfalse, -⟩
        · simp only at hclock
          omega
        · cases hfalse

theorem punctual_react (hrun : (system parse reg .react x now).Run tr s) : Punctual x s := by
  have hi : ReActInv x s := by
    apply hrun.invariant (P := ReActInv x)
    · rintro s rfl
      exact ⟨⟨_, rfl, rfl, by simp⟩, by simp⟩
    · intro s l s' hi hs
      exact hi.step hs
  obtain ⟨⟨r, hw, -, hlate⟩, htime⟩ := hi
  refine ⟨htime, ?_⟩
  intro hret hex
  rw [hw] at hret ⊢
  have hpc : r.pc = .returned := by simpa [WorkflowState.isReturned] using hret
  have hfailing := hlate hex
  unfold ReActWorkflow.Failing at hfailing
  rw [hpc] at hfailing
  exact hfailing

/-! ### Runs That Are Cancelled from the Start -/

theorem punctual_of_cancelled (hflag : x.cancelRequested = true) (hkind : kind ≠ .react)
    (hrun : (system parse reg kind x now).Run tr s) : Punctual x s := by
  have hi : s.workflow.Halted ∧ s.guards = [] := by
    apply hrun.invariant (P := fun s => s.workflow.Halted ∧ s.guards = [])
    · rintro s rfl
      refine ⟨?_, rfl⟩
      cases kind with
      | react => exact absurd rfl hkind
      | planExecute => exact ⟨hflag, rfl⟩
      | mapReduce => exact ⟨hflag, by simp [MapReduceWorkflow.start]⟩
    · intro s l s' hi hs
      obtain ⟨hh, hnone⟩ := hi
      cases l with
      | cancel =>
        cases hs
        exact ⟨hh.cancel, hnone⟩
      | tick d =>
        cases hs
        exact ⟨hh, hnone⟩
      | work a =>
        obtain ⟨-, hnext, -, hguards⟩ := next_work hs
        obtain ⟨hh', hguard⟩ := hh.next hnext
        refine ⟨hh', ?_⟩
        rw [hguards, hnone, hguard]
        rfl
  constructor <;> simp [hi.2]

/-! ### Units That Start after the Deadline -/

/-- The LLM takes until `now + d` to give a plan of one step. -/
theorem late_planExecute {text : String} (htext : parse text = none)
    (hflag : x.cancelRequested = false) (d : ℕ) :
    ∃ tr s, (system parse reg .planExecute x now).Run tr s ∧ s.clock = now + d ∧
      (now + d, true) ∈ s.guards := by
  obtain ⟨y, rfl⟩ : ∃ y : Session, x = { y with cancelRequested := false } :=
    ⟨x, by rw [← hflag]⟩
  let w : Session := { y with cancelRequested := false, state := .waitingForLlm }
  let steps : List PlanExecuteWorkflow.Step := [{ id := 1, description := text }]
  have hbefore : System.exec (next parse reg)
      ⟨.start .planExecute { y with cancelRequested := false }, now, []⟩
      [.work (.main .tau), .work (.main .tau), .tick d] =
      some ⟨.planExecute ⟨.planGet, w, {}, []⟩, now + d, []⟩ := rfl
  have hreply : next parse reg ⟨.planExecute ⟨.planGet, w, {}, []⟩, now + d, []⟩
      (.work (.main (SessionTask.unparsed text))) =
      some ⟨.planExecute ⟨.storeExecuting, w, {}, steps⟩, now + d, []⟩ := by
    apply next_of_workflow rfl
    simp only [WorkflowState.next, SessionTask.next_planGet htext, Option.map_some]
    rfl
  have hafter : System.exec (next parse reg)
      ⟨.planExecute ⟨.storeExecuting, w, {}, steps⟩, now + d, []⟩
      [.work (.main .tau), .work (.main .tau)] =
      some ⟨.planExecute ⟨.countStep 0, { w with state := .executingTools }, {}, steps⟩, now + d,
        [(now + d, true)]⟩ := rfl
  exact ⟨_, _, ((System.run_of_exec hbefore).snoc hreply).exec_append hafter, rfl,
    List.mem_singleton_self _⟩

/-- The LLM takes until `now + d` to give one sub-task. -/
theorem late_mapReduce {text : String} (htext : parse text = none)
    (hflag : x.cancelRequested = false) (d : ℕ) :
    ∃ tr s, (system parse reg .mapReduce x now).Run tr s ∧ s.clock = now + d ∧
      (now + d, true) ∈ s.guards := by
  obtain ⟨y, rfl⟩ : ∃ y : Session, x = { y with cancelRequested := false } :=
    ⟨x, by rw [← hflag]⟩
  let w : Session := { y with cancelRequested := false, state := .waitingForLlm }
  let tasks : List MapReduceWorkflow.SubTask := [{ id := 1, description := text }]
  have hbefore : System.exec (next parse reg)
      ⟨.start .mapReduce { y with cancelRequested := false }, now, []⟩
      [.work (.main .tau), .work (.main .tau), .tick d] =
      some ⟨.mapReduce ⟨.decomposeGet, w, {}, [], []⟩, now + d, []⟩ := rfl
  have hreply : next parse reg ⟨.mapReduce ⟨.decomposeGet, w, {}, [], []⟩, now + d, []⟩
      (.work (.main (SessionTask.unparsed text))) =
      some ⟨.mapReduce ⟨.storeExecuting, w, {}, tasks, [.pending]⟩, now + d, []⟩ := by
    apply next_of_workflow rfl
    simp only [WorkflowState.next, MapReduceWorkflow.next, SessionTask.next_decomposeGet htext,
      Option.map_some]
    rfl
  have hafter : System.exec (next parse reg)
      ⟨.mapReduce ⟨.storeExecuting, w, {}, tasks, [.pending]⟩, now + d, []⟩
      [.work (.main .tau), .work (.main .tau), .work (.sub 0 .tau)] =
      some ⟨.mapReduce ⟨.submit 1, { w with state := .executingTools }, {}, tasks, [.countStep]⟩,
        now + d, [(now + d, true)]⟩ := rfl
  exact ⟨_, _, ((System.run_of_exec hbefore).snoc hreply).exec_append hafter, rfl,
    List.mem_singleton_self _⟩

/-! ### When the Deadline Is Kept -/

/-- Without exceptions every run ends, whatever time passes. -/
theorem ends (hx : x.Fresh) :
    ((system parse reg kind x now).restrict (quiet reg)).Ends (fun l => l.isWork)
      fun s => s.workflow.isReturned := by
  refine WorkflowState.ends parse reg State.workflow State.clock ?_ ?_ ?_ ?_
  · rintro s rfl
    exact WorkflowState.ready_start kind hx
  · intro s l s' hs hl
    cases l with
    | cancel | tick d => cases hl
    | work a =>
      obtain ⟨hquiet, hnext⟩ := hs
      exact ⟨a, (next_work hnext).2.1, hquiet⟩
  · intro s l s' hs hl
    obtain ⟨-, hnext⟩ := hs
    cases l with
    | cancel =>
      cases hnext
      exact .inr rfl
    | tick d =>
      cases hnext
      exact .inl rfl
    | work a => exact absurd rfl hl
  · intro s a w' hw hquiet htime
    have hreads : a.readsAt s.clock := by
      simpa [Action.readsAt, Option.all_eq_true] using htime
    exact ⟨.work a, _, rfl, hquiet, next_of_workflow hreads hw⟩

/-- **The deadline of a session.** Without exceptions a run ends. All runs
    that are over by `horizon` are punctual if and only if the workflow is
    ReAct, or the session was cancelled before the run, or the horizon is
    not after the deadline. -/
theorem punctual_iff (hparse : ∃ text, parse text = none) (hx : x.Fresh) {horizon : ℕ}
    (hnow : now ≤ horizon) :
    ((system parse reg kind x now).restrict (quiet reg)).Ends (fun l => l.isWork)
        (fun s => s.workflow.isReturned) ∧
      ((∀ tr s, (system parse reg kind x now).Run tr s → s.clock ≤ horizon → Punctual x s) ↔
        kind = .react ∨ x.cancelRequested = true ∨ horizon ≤ x.deadline) := by
  refine ⟨ends hx, ?_, ?_⟩
  · intro hall
    by_contra hnone
    simp only [not_or, Bool.not_eq_true, Nat.not_le] at hnone
    obtain ⟨hkind, hflag, hlate⟩ := hnone
    obtain ⟨text, htext⟩ := hparse
    obtain ⟨tr, s, hrun, hclock, hguard⟩ : ∃ tr s, (system parse reg kind x now).Run tr s ∧
        s.clock = now + (horizon - now) ∧ (now + (horizon - now), true) ∈ s.guards := by
      cases kind with
      | react => exact absurd rfl hkind
      | planExecute => exact late_planExecute htext hflag _
      | mapReduce => exact late_mapReduce htext hflag _
    have hpunctual := (hall tr s hrun (by omega)).inTime _ hguard
    omega
  · intro hcond tr s hrun hclock
    by_cases hkind : kind = .react
    · subst hkind
      exact punctual_react hrun
    rcases hcond with hreact | hflag | hle
    · exact absurd hreact hkind
    · exact punctual_of_cancelled hflag hkind hrun
    · exact punctual_of_clock_le hrun (hclock.trans hle)

/-! ### A Late Step -/

/-- A request to be answered within a second. -/
def urgent : CreateSessionRequest := { prompt := "2 + 2?", config := { timeout := 1 } }

/-- Two seconds pass before the first guard. -/
def lateQuestion : List Label :=
  [.work (.main .tau), .work (.main .tau), .work (.main .tau), .tick (2 * ticksPerSecond),
    .work (.main (.now (2 * ticksPerSecond))), .work (.main .tau), .work (.main .tau),
    .work (.main .tau)]

/-- The LLM takes two seconds to plan. -/
def latePlan : List Label :=
  [.work (.main .tau), .work (.main .tau), .tick (2 * ticksPerSecond),
    .work (.main (SessionTask.unparsed "think")), .work (.main .tau), .work (.main .tau)]

/-- The plan is executed all the same. -/
theorem latePlan_executed :
    ¬ ∀ (parse : String → Option Json) (reg : ToolRegistry) (kind : WorkflowKind) (x : Session)
      (now : ℕ), x.Fresh → ∀ tr s, (system parse reg kind x now).Run tr s → Punctual x s := by
  intro hall
  have hends : (System.exec (next (fun _ => none) ⟨[]⟩)
      ⟨.start .planExecute (urgent.newSession 1 0), 0, []⟩ latePlan).map
      (fun s => decide ((2 * ticksPerSecond, true) ∈ s.guards)) = some true := by decide
  obtain ⟨s, hrun, hguard⟩ := System.exists_run_of_exec hends
  have hfresh : (urgent.newSession 1 0).Fresh := ⟨rfl, rfl, ⟨rfl, rfl⟩, by decide⟩
  have hle := (hall _ _ .planExecute _ 0 hfresh _ s hrun).inTime _ (of_decide_eq_true hguard)
  exact absurd hle (by decide)

/-- The same delay lets a ReAct run fail. -/
theorem lateQuestion_fails :
    ∃ s, (system (fun _ => none) ⟨[]⟩ .react (urgent.newSession 1 0) 0).Run lateQuestion s ∧
      s.workflow.isReturned ∧ s.workflow.session.state = .failed := by
  have hends : (System.exec (next (fun _ => none) ⟨[]⟩)
      ⟨.start .react (urgent.newSession 1 0), 0, []⟩ lateQuestion).map
      (fun s => (s.workflow.isReturned, s.clock, s.guards)) =
        some (true, 2 * ticksPerSecond, [(2 * ticksPerSecond, false)]) := by decide
  obtain ⟨s, hrun, hends⟩ := System.exists_run_of_exec hends
  simp only [Prod.mk.injEq] at hends
  obtain ⟨hret, hclock, hguards⟩ := hends
  have hfresh : (urgent.newSession 1 0).Fresh := ⟨rfl, rfl, ⟨rfl, rfl⟩, by decide⟩
  have hparse : ∃ text, (fun _ : String => (none : Option Json)) text = none := ⟨"", rfl⟩
  have hiff : (∀ tr s, (system (fun _ => none) ⟨[]⟩ .react (urgent.newSession 1 0) 0).Run tr s →
      s.clock ≤ 2 * ticksPerSecond → Punctual (urgent.newSession 1 0) s) ↔ _ :=
    (punctual_iff hparse hfresh (Nat.zero_le _)).2
  have hpunctual := hiff.mpr (.inl rfl) _ s hrun hclock.le
  exact ⟨s, hrun, hret, hpunctual.fails hret ⟨_, by rw [hguards]; exact List.mem_singleton_self _,
    by decide⟩⟩

end TimedRun

end Forge
