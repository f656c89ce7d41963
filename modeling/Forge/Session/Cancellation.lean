import Forge.Framework.Polling
import Forge.Session.WorkflowEnd

/-! # Cancelling a Plan or a Map-Reduce Run

  `PlanExecuteWorkflow::run` polls `cancel_requested` in front of every
  plan step, `MapReduceWorkflow::run` in every sub-task and after the last
  one. A cancellation may come at any moment.

  - `executing`: the plan steps or sub-tasks are not over;
  - `stage`: whether `run` will check the flag again;
  - `stage_step`, `polls`: the checks decide whether `run` is cancelled;
  - `cancel_honoured_iff`: which cancellations during the plan steps or
    sub-tasks are honoured.
-/

namespace Forge

open LTS

open Workflow (Label Exit)

open MapReduceWorkflow (Action)

/-! ### The Way Out -/

namespace Workflow

/-- The state the session is in after the way out. -/
def Exit.final : Exit → SessionState → SessionState
  | .setError _ final, _ | .storeError final, _ => final
  | .setFinalAnswer _, _ | .storeCompleted _, _ => .completed
  | .fillError, st | .fillAnswer _, st => st

theorem Exit.final_next {e e' : Exit} {x : Session} (hnext : e.next = some e') :
    e'.final (e.session x).state = e.final x.state := by
  cases e <;> cases hnext <;> rfl

theorem Exit.final_last {e : Exit} {x : Session} (hlast : e.next = none) :
    (e.session x).state = e.final x.state := by
  cases e <;> first | rfl | cases hlast

theorem Exit.cancelRequested_eq (e : Exit) (x : Session) :
    (e.session x).cancelRequested = x.cancelRequested := by
  cases e <;> rfl

/-- The checks of a run with that many plan steps or sub-tasks are over,
    and the flag was down. -/
def checked (entries : ℕ) : Stage := if entries = 0 then .void else .refused

/-- The stage of a run that ends in the state `final`. -/
def ended (entries : ℕ) (final : SessionState) : Stage :=
  if final = .cancelled then .granted else checked entries

/-- The last check finds the flag down. -/
theorem checked_step {flag : Prop} (entries : ℕ) (hdown : ¬flag) :
    Stage.ahead.Step flag (checked entries) := by
  unfold checked
  split
  · exact .leave _
  · exact .refuse hdown

/-- What does not end in `CANCELLED` has been checked. -/
theorem ended_of_ne {entries : ℕ} {final : SessionState} (hfinal : final ≠ .cancelled) :
    ended entries final = checked entries := if_neg hfinal

end Workflow

/-! ### Plan-and-Execute -/

namespace PlanExecuteWorkflow

open Workflow (checked ended checked_step ended_of_ne)

variable {parse : String → Option Json} {reg : ToolRegistry} {s s' : State} {l : Label}

/-- The ReAct run of the last plan step has not returned. -/
def State.executing (s : State) : Bool :=
  match s.pc with
  | .storeWaiting | .planComplete | .planGet | .storeExecuting => true
  | .stepHead i | .countStep i | .createSub i => i < s.steps.length
  | .runSub i sub => i + 1 < s.steps.length ∨ sub.pc ≠ .returned
  | _ => false

/-- `run` is at the call of the LLM in `synthesize`, or waits for it. -/
def State.synthesizing (s : State) : Bool :=
  s.pc = .synthesizeComplete ∨ s.pc = .synthesizeGet

/-- `run` checks the flag at the head of the loop, if there is a step. -/
def State.stage (s : State) : Stage :=
  match s.pc with
  | .storeWaiting | .planComplete | .planGet | .storeExecuting => .ahead
  | .stepHead i => if i < s.steps.length then .ahead else checked s.steps.length
  | .countStep i | .createSub i | .runSub i _ =>
      if i + 1 < s.steps.length then .ahead else checked s.steps.length
  | .storeSynthesizing | .synthesizeComplete | .synthesizeGet => checked s.steps.length
  | .exit e => ended s.steps.length (e.final s.session.state)
  | .returned => ended s.steps.length s.session.state
  | .threw => .void

theorem cancelRequested_eq (hs : Moves parse reg s l s') :
    s'.session.cancelRequested = s.session.cancelRequested := by
  cases hs
  case exitNext e _ _ | exitLast e _ => exact e.cancelRequested_eq _
  all_goals rfl

/-- Every step of `run` keeps to the stages. -/
theorem stage_step (hs : Moves parse reg s l s') :
    s.stage.Step (s.session.cancelRequested = true) s'.stage := by
  cases hs
  case noPlan => exact .leave _
  case storeExecuting x res steps =>
    -- an empty plan is not accepted, but would have no step to check at
    by_cases hlen : 0 < steps.length
    · simp only [State.stage, hlen, if_true]
      exact .stay _
    · simp only [State.stage, checked, Nat.eq_zero_of_not_pos hlen, if_true]
      exact .leave _
  case cancelled i hi hcancel =>
    simp only [State.stage, hi, if_true]
    exact .grant hcancel
  case notCancelled i hi hcancel =>
    have hdown : ¬(false = true) := by simp
    simp only [State.stage, hi, if_true, hcancel]
    split
    · exact .stay _
    · exact checked_step _ hdown
  case noMoreSteps i hle =>
    simp only [State.stage, Nat.not_lt.mpr hle, if_false]
    exact .stay _
  case subReturned i sub step hret hi =>
    simp only [State.stage, List.length_set]
    exact .stay _
  case noAnswer | answer =>
    simp only [State.stage]
    rw [ended_of_ne (by simp [Exit.final])]
    exact .stay _
  case exitNext hnext =>
    simp only [State.stage, Workflow.Exit.final_next hnext]
    exact .stay _
  case exitLast hlast =>
    simp only [State.stage, Workflow.Exit.final_last hlast]
    exact .stay _
  case planCompleteRaises | planGetRaises | subRaises => exact .leave _
  case synthesizeCompleteRaises | synthesizeGetRaises => exact .leave _
  all_goals exact .stay _

end PlanExecuteWorkflow

/-! ### Map-Reduce -/

namespace MapReduceWorkflow

open Workflow (checked ended checked_step ended_of_ne)

variable {parse : String → Option Json} {reg : ToolRegistry} {s s' : State} {l : Label}

/-- The sub-task has returned. -/
def SubPC.isDone : SubPC → Bool
  | .done _ => true
  | _ => false

/-- Some sub-task has not returned. -/
def State.executing (s : State) : Bool :=
  match s.pc with
  | .storeWaiting | .decomposeComplete | .decomposeGet | .storeExecuting => true
  | .threw => false
  | _ => s.subs.any fun pc => !pc.isDone

/-- `run` is at the call of the LLM in `reduce`, or waits for it. -/
def State.synthesizing (s : State) : Bool := s.pc = .reduceComplete ∨ s.pc = .reduceGet

/-- `run` checks the flag when it has waited for the sub-tasks. -/
def State.stage (s : State) : Stage :=
  match s.pc with
  | .storeWaiting | .decomposeComplete | .decomposeGet | .storeExecuting => .ahead
  | .submit _ | .join _ | .checkCancel => .ahead
  | .storeReducing | .reduceComplete | .reduceGet => checked s.tasks.length
  | .exit e => ended s.tasks.length (e.final s.session.state)
  | .returned => ended s.tasks.length s.session.state
  | .threw => .void

/-- Before the last sub-task has returned, the check of the flag is ahead. -/
theorem Inv.stage_of_executing (hi : Inv s) (hexec : s.executing) : s.stage = .ahead := by
  -- after the sub-tasks have been waited for, none of them is running
  have hover : s.pc.joined s.subs.length = s.subs.length →
      s.subs.any (fun pc => !pc.isDone) = false := by
    intro hpc
    have hjoined := hi.joined
    rw [hpc] at hjoined
    simp only [List.any_eq_false, Bool.not_eq_true', Bool.not_eq_false]
    intro pc hmem
    obtain ⟨j, hj⟩ := List.mem_iff_getElem?.mp hmem
    obtain ⟨b, hb⟩ := hjoined j (List.getElem?_eq_some_iff.mp hj).1
    rw [hj, Option.some.injEq] at hb
    simp [hb, SubPC.isDone]
  obtain ⟨pc, x, res, tasks, subs⟩ := s
  cases pc
  case storeReducing | reduceComplete | reduceGet | exit | returned =>
    simp only [State.executing, hover rfl, Bool.false_eq_true] at hexec
  case threw => cases hexec
  all_goals rfl

theorem cancelRequested_main (hs : MainMoves parse s l s') :
    s'.session.cancelRequested = s.session.cancelRequested := by
  cases hs
  case exitNext e _ _ | exitLast e _ => exact e.cancelRequested_eq _
  all_goals rfl

theorem stage_main (hs : MainMoves parse s l s') :
    s.stage.Step (s.session.cancelRequested = true) s'.stage := by
  cases hs
  case noTasks => exact .leave _
  case cancelled hcancel => exact .grant hcancel
  case notCancelled hcancel => exact checked_step _ (by simp [hcancel])
  case noAnswer | answer =>
    simp only [State.stage]
    rw [ended_of_ne (by simp [Exit.final])]
    exact .stay _
  case exitNext hnext =>
    simp only [State.stage, Workflow.Exit.final_next hnext]
    exact .stay _
  case exitLast hlast =>
    simp only [State.stage, Workflow.Exit.final_last hlast]
    exact .stay _
  case decomposeCompleteRaises | decomposeGetRaises | joinRaises => exact .leave _
  case reduceCompleteRaises | reduceGetRaises => exact .leave _
  all_goals exact .stay _

/-- A sub-task leaves the stage of `run` and the flag alone. -/
theorem stage_sub {i : ℕ} (hs : SubMoves reg i s l s') :
    s'.stage = s.stage ∧ s'.session.cancelRequested = s.session.cancelRequested := by
  cases hs
  case writeResult => exact ⟨by simp [State.stage], rfl⟩
  all_goals exact ⟨rfl, rfl⟩

end MapReduceWorkflow

/-! ### The Two Alike -/

namespace WorkflowState

variable {parse : String → Option Json} {reg : ToolRegistry} {w w' : WorkflowState} {a : Action}

def kind : WorkflowState → WorkflowKind
  | .react _ => .react
  | .planExecute _ => .planExecute
  | .mapReduce _ => .mapReduce

/-- The plan steps or sub-tasks are not over. -/
def executing : WorkflowState → Bool
  | .react _ => false
  | .planExecute s => s.executing
  | .mapReduce s => s.executing

/-- `run` is at the call of the LLM in `synthesize` or `reduce`, or waits
    for it. -/
def synthesizing : WorkflowState → Bool
  | .react _ => false
  | .planExecute s => s.synthesizing
  | .mapReduce s => s.synthesizing

/-- Whether `run` checks the flag after the plan steps or sub-tasks that
    are under way. -/
def stage : WorkflowState → Stage
  | .react _ => .void
  | .planExecute s => s.stage
  | .mapReduce s => s.stage

theorem kind_next (hs : w.next parse reg a = some w') : w'.kind = w.kind := by
  obtain ⟨s, s', l, rfl, rfl, rfl, -⟩ | ⟨s, s', l, rfl, rfl, rfl, -⟩ | ⟨s, s', rfl, rfl, -⟩ :=
    next_cases hs <;> rfl

theorem kind_cancel (w : WorkflowState) :
    (w.mapSession SessionTask.cancelRequest).kind = w.kind := by
  cases w <;> rfl

theorem stage_cancel (w : WorkflowState) :
    (w.mapSession SessionTask.cancelRequest).stage = w.stage := by
  cases w <;> rfl

theorem cancelRequested_cancel (w : WorkflowState) :
    (w.mapSession SessionTask.cancelRequest).session.cancelRequested = true := by
  cases w <;> rfl

/-- Every step keeps to the stages and leaves the flag alone. -/
theorem stage_next (hs : w.next parse reg a = some w') :
    w.stage.Step (w.session.cancelRequested = true) w'.stage ∧
      w'.session.cancelRequested = w.session.cancelRequested := by
  obtain ⟨s, s', l, rfl, rfl, rfl, hs'⟩ | ⟨s, s', l, rfl, rfl, rfl, hs'⟩ | ⟨s, s', rfl, rfl, hs'⟩ :=
    next_cases hs
  · refine ⟨.stay _, ?_⟩
    cases hs' <;> rfl
  · exact ⟨PlanExecuteWorkflow.stage_step hs', PlanExecuteWorkflow.cancelRequested_eq hs'⟩
  · cases a with
    | main l =>
      have hmoves := MapReduceWorkflow.mainMoves_of_next hs'
      exact ⟨MapReduceWorkflow.stage_main hmoves, MapReduceWorkflow.cancelRequested_main hmoves⟩
    | sub i l =>
      obtain ⟨hstage, hflag⟩ := MapReduceWorkflow.stage_sub (MapReduceWorkflow.subMoves_of_next hs')
      refine ⟨?_, hflag⟩
      show s.stage.Step _ s'.stage
      rw [hstage]
      exact .stay _

/-- The last call of the LLM comes after the checks. -/
theorem stage_of_synthesizing (h : w.synthesizing) : w.stage ≠ .ahead ∧ w.stage ≠ .granted := by
  have hchecked : ∀ n, Workflow.checked n ≠ .ahead ∧ Workflow.checked n ≠ .granted := by
    intro n
    unfold Workflow.checked
    split <;> simp
  cases w with
  | react s => cases h
  | planExecute s =>
    simp only [synthesizing, PlanExecuteWorkflow.State.synthesizing, decide_eq_true_eq] at h
    rcases h with hpc | hpc <;>
      simpa [stage, PlanExecuteWorkflow.State.stage, hpc] using hchecked s.steps.length
  | mapReduce s =>
    simp only [synthesizing, MapReduceWorkflow.State.synthesizing, decide_eq_true_eq] at h
    rcases h with hpc | hpc <;>
      simpa [stage, MapReduceWorkflow.State.stage, hpc] using hchecked s.tasks.length

/-- The stage of a run that has returned. -/
theorem stage_of_returned (hkind : w.kind ≠ .react) (hret : w.isReturned)
    (hplanned : 0 < w.planned) :
    (w.stage = .granted ∨ w.stage = .refused) ∧
      (w.stage = .granted ↔ w.session.state = .cancelled) := by
  have hended : ∀ n final, 0 < n →
      (Workflow.ended n final = .granted ∨ Workflow.ended n final = .refused) ∧
        (Workflow.ended n final = .granted ↔ final = .cancelled) := by
    intro n final hn
    have hne : n ≠ 0 := Nat.ne_of_gt hn
    by_cases hfinal : final = .cancelled <;>
      simp [Workflow.ended, Workflow.checked, hfinal, hne]
  cases w with
  | react s => exact absurd rfl hkind
  | planExecute s =>
    have hpc : s.pc = .returned := by simpa [isReturned] using hret
    have hstage : stage (.planExecute s) = Workflow.ended s.steps.length s.session.state := by
      simp only [stage, PlanExecuteWorkflow.State.stage, hpc]
    rw [hstage]
    exact hended _ _ hplanned
  | mapReduce s =>
    have hpc : s.pc = .returned := by simpa [isReturned] using hret
    have hstage : stage (.mapReduce s) = Workflow.ended s.tasks.length s.session.state := by
      simp only [stage, MapReduceWorkflow.State.stage, hpc]
    rw [hstage]
    exact hended _ _ hplanned

end WorkflowState

namespace WorkflowRun

variable {parse : String → Option Json} {reg : ToolRegistry} {kind : WorkflowKind} {x : Session}
  {s s' : State} {l : Label} {tr : List Label}

/-- `cancel_requested` is set. -/
def State.requested (s : State) : Prop := s.workflow.session.cancelRequested = true

/-- The step raises no exception. -/
def quiet (reg : ToolRegistry) (s : State) : Label → Prop
  | .cancel => True
  | .work a => s.workflow.raises reg a = false

theorem kind_run (hrun : (system parse reg kind x).Run tr s) : s.workflow.kind = kind := by
  apply hrun.invariant (P := fun s => s.workflow.kind = kind)
  · rintro s rfl
    cases kind <;> rfl
  · intro s l s' hk hs
    cases l with
    | cancel =>
      cases hs
      exact (WorkflowState.kind_cancel s.workflow).trans hk
    | work a =>
      obtain ⟨w', hw, rfl⟩ := Option.map_eq_some_iff.mp hs
      exact (WorkflowState.kind_next hw).trans hk

/-- The checks of `run` poll the flag. -/
theorem polls (hkind : kind ≠ .react) :
    (system parse reg kind x).Polls State.requested fun s => s.workflow.stage where
  init := by
    rintro s rfl
    cases kind with
    | react => exact absurd rfl hkind
    | planExecute | mapReduce => rfl
  step := by
    intro s l s' hs
    cases l with
    | cancel =>
      cases hs
      rw [WorkflowState.stage_cancel]
      exact .stay _
    | work a =>
      obtain ⟨w', hw, rfl⟩ := Option.map_eq_some_iff.mp hs
      exact (WorkflowState.stage_next hw).1
  keeps := by
    intro s l s' hs hflag
    cases l with
    | cancel =>
      cases hs
      exact WorkflowState.cancelRequested_cancel s.workflow
    | work a =>
      obtain ⟨w', hw, rfl⟩ := Option.map_eq_some_iff.mp hs
      exact (WorkflowState.stage_next hw).2.trans hflag

/-- Without exceptions every run ends. -/
theorem ends (hx : x.Fresh) :
    ((system parse reg kind x).restrict (quiet reg)).Ends (· ≠ .cancel)
      fun s => s.workflow.isReturned := by
  refine WorkflowState.ends parse reg State.workflow (fun _ => 0) ?_ ?_ ?_ ?_
  · rintro s rfl
    exact WorkflowState.ready_start kind hx
  · intro s l s' hs hl
    cases l with
    | cancel => exact absurd rfl hl
    | work a =>
      obtain ⟨hquiet, hnext⟩ := hs
      obtain ⟨w', hw, rfl⟩ := Option.map_eq_some_iff.mp hnext
      exact ⟨a, hw, hquiet⟩
  · intro s l s' hs hl
    obtain rfl := not_not.mp hl
    obtain ⟨-, hnext⟩ := hs
    cases hnext
    exact .inr rfl
  · intro s a w' hw hquiet _
    have hnext : next parse reg s (.work a) = some ⟨w', s.stores ++ (s.workflow.store a).toList,
        s.counts ++ [w'.session.stepCount]⟩ := by simp [next, hw]
    exact ⟨.work a, _, by simp, hquiet, hnext⟩

/-- **Cancelling during the plan steps or sub-tasks.** Without exceptions
    a run ends. One with entries that is cancelled before the last of them
    has returned ends in `CANCELLED`, without an answer and without the
    last call of the LLM, if and only if it is a map-reduce run or was
    cancelled while the check in front of a plan step was ahead. -/
theorem cancel_honoured_iff (hx : x.Fresh) (hkind : kind ≠ .react) :
    ((system parse reg kind x).restrict (quiet reg)).Ends (· ≠ .cancel)
        (fun s => s.workflow.isReturned) ∧
      ∀ tr s, (system parse reg kind x).Run tr s → s.workflow.isReturned → 0 < s.workflow.planned →
        (system parse reg kind x).Visited (fun s => s.workflow.executing ∧ s.requested) tr →
        ((s.workflow.session.state = .cancelled ∧ s.workflow.session.finalAnswer = "" ∧
            ¬(system parse reg kind x).Visited (fun s => s.workflow.synthesizing) tr) ↔
          kind = .mapReduce ∨
            (system parse reg kind x).Visited
              (fun s => s.workflow.stage = .ahead ∧ s.requested) tr) := by
  refine ⟨ends hx, ?_⟩
  intro tr s hrun hret hplanned hcancel
  have hd : (system parse reg kind x).Deterministic := System.deterministic_ofNext _ _
  have hk : s.workflow.kind ≠ .react := by
    rw [kind_run hrun]
    exact hkind
  obtain ⟨hdecided, hgranted⟩ := WorkflowState.stage_of_returned hk hret hplanned
  have hiff := (polls hkind).granted_iff hd hrun hdecided
  constructor
  · intro hhonoured
    exact .inr (hiff.mp (hgranted.mpr hhonoured.1))
  · intro hcond
    have hahead : (system parse reg kind x).Visited
        (fun s => s.workflow.stage = .ahead ∧ s.requested) tr := by
      rcases hcond with rfl | hahead
      · -- the check comes after the last sub-task
        obtain ⟨tr₁, s₁, hpre, hrun₁, hexec, hflag⟩ := hcancel
        refine ⟨tr₁, s₁, hpre, hrun₁, ?_, hflag⟩
        have hinv := (inv_run hx hrun₁).outcome.inv
        have hk₁ := kind_run hrun₁
        cases hw : s₁.workflow with
        | react r | planExecute r =>
          rw [hw] at hk₁
          cases hk₁
        | mapReduce r =>
          rw [hw] at hinv hexec
          exact MapReduceWorkflow.Inv.stage_of_executing hinv hexec
      · exact hahead
    have hstage := hiff.mpr hahead
    have hstate := hgranted.mp hstage
    refine ⟨hstate, ?_, ?_⟩
    · have hsettled := (inv_run hx hrun).outcome.settled (by simp [Session.isTerminal, hstate,
        SessionState.terminal])
      rw [hstate] at hsettled
      exact hsettled.2
    · intro hvisited
      exact (polls hkind).not_visited_of_granted hd hrun hstage
        (hvisited.mono fun s hs => WorkflowState.stage_of_synthesizing hs)

/-! ### Two Cancellations -/

/-- The LLM gives a text. -/
def textReply (text : String) : Label :=
  .work (.main (.reply { message := { role := "assistant", content := text } }))

/-- The LLM is asked for a plan. -/
def askedForPlan : List Label := [.work (.main .tau), .work (.main .tau)]

/-- The run is cancelled while the LLM plans. -/
def cancelledEarly : List Label :=
  askedForPlan ++ [.cancel] ++
    [textReply "think", .work (.main .tau), .work (.main .tau), .work (.main .tau),
      .work (.main .tau), .work (.main .tau)]

/-- The only plan step calls the LLM. -/
def untilStep : List Label :=
  askedForPlan ++
    [textReply "think", .work (.main .tau), .work (.main .tau), .work (.main .tau),
      .work (.main (.now 0)), .work (.main .tau), .work (.main .tau), .work (.main .tau),
      .work (.main (.now 0)), .work (.main .tau), .work (.main .tau), .work (.main .tau)]

/-- The run is cancelled during the call. -/
def cancelledLate : List Label :=
  untilStep ++ [.cancel] ++
    [textReply "4", .work (.main .tau), .work (.main .tau), .work (.main .tau), .work (.main .tau),
      .work (.main .tau), .work (.main .tau), .work (.main .tau), .work (.main .tau), textReply "4",
      .work (.main .tau), .work (.main .tau), .work (.main .tau)]

/-- A plan of one step that is cancelled during the step is completed. -/
theorem lastStep_completed :
    ¬ ∀ (parse : String → Option Json) (reg : ToolRegistry) (kind : WorkflowKind) (x : Session),
      x.Fresh → kind ≠ .react → ∀ tr s, (system parse reg kind x).Run tr s →
      s.workflow.isReturned → 0 < s.workflow.planned →
      (system parse reg kind x).Visited (fun s => s.workflow.executing ∧ s.requested) tr →
      s.workflow.session.state = .cancelled ∧ s.workflow.session.finalAnswer = "" ∧
        ¬(system parse reg kind x).Visited (fun s => s.workflow.synthesizing) tr := by
  intro hall
  have hcancelled : (System.exec (next (fun _ => none) ⟨[]⟩)
      (start .planExecute (SessionTask.question.newSession 1 0)) (untilStep ++ [.cancel])).map
      (fun s => (s.workflow.executing, s.workflow.session.cancelRequested)) =
        some (true, true) := by decide
  have hends : (System.exec (next (fun _ => none) ⟨[]⟩)
      (start .planExecute (SessionTask.question.newSession 1 0)) cancelledLate).map
      (fun s => (s.workflow.isReturned, s.workflow.planned, s.workflow.session.state)) =
        some (true, 1, .completed) := by decide
  obtain ⟨s₁, hrun₁, hcancelled⟩ := System.exists_run_of_exec hcancelled
  obtain ⟨s, hrun, hends⟩ := System.exists_run_of_exec hends
  simp only [Prod.mk.injEq] at hcancelled hends
  obtain ⟨hret, hplanned, hstate⟩ := hends
  have hfresh : (SessionTask.question.newSession 1 0).Fresh := ⟨rfl, rfl, ⟨rfl, rfl⟩, by decide⟩
  have hhonoured := hall _ _ .planExecute _ hfresh (by decide) _ s hrun hret (by omega)
    ⟨_, s₁, List.prefix_append _ _, hrun₁, hcancelled⟩
  rw [hstate] at hhonoured
  cases hhonoured.1

/-- A plan that is cancelled before its first step is not. -/
theorem firstStep_cancelled :
    ∃ s, (system (fun _ => none) ⟨[]⟩ .planExecute (SessionTask.question.newSession 1 0)).Run
        cancelledEarly s ∧ s.workflow.isReturned ∧
      s.workflow.session.state = .cancelled ∧ s.workflow.session.finalAnswer = "" ∧
      ¬(system (fun _ => none) ⟨[]⟩ .planExecute (SessionTask.question.newSession 1 0)).Visited
        (fun s => s.workflow.synthesizing) cancelledEarly := by
  have hcancelled : (System.exec (next (fun _ => none) ⟨[]⟩)
      (start .planExecute (SessionTask.question.newSession 1 0)) (askedForPlan ++ [.cancel])).map
      (fun s => (s.workflow.executing, s.workflow.stage, s.workflow.session.cancelRequested)) =
        some (true, .ahead, true) := by decide
  have hends : (System.exec (next (fun _ => none) ⟨[]⟩)
      (start .planExecute (SessionTask.question.newSession 1 0)) cancelledEarly).map
      (fun s => (s.workflow.isReturned, s.workflow.planned)) = some (true, 1) := by decide
  obtain ⟨s₁, hrun₁, hcancelled⟩ := System.exists_run_of_exec hcancelled
  obtain ⟨s, hrun, hends⟩ := System.exists_run_of_exec hends
  simp only [Prod.mk.injEq] at hcancelled hends
  obtain ⟨hexec, hahead, hflag⟩ := hcancelled
  have hfresh : (SessionTask.question.newSession 1 0).Fresh := ⟨rfl, rfl, ⟨rfl, rfl⟩, by decide⟩
  have hkind : WorkflowKind.planExecute ≠ .react := by decide
  have hiff := (cancel_honoured_iff hfresh hkind).2 _ s hrun hends.1 (by omega)
    ⟨_, s₁, List.prefix_append _ _, hrun₁, hexec, hflag⟩
  exact ⟨s, hrun, hends.1,
    hiff.mpr (.inr ⟨_, s₁, List.prefix_append _ _, hrun₁, hahead, hflag⟩)⟩

end WorkflowRun

end Forge
