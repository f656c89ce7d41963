import Forge.Server.SubscriptionEvents

/-! # Subscriptions — A Counter That Wraps

  The step counts of the events go back when `step_count`, a `uint32_t`,
  wraps. The LLM gives a plan of 2^32 steps, and the provider polls the
  session after every step of its task:

  - `Ready`, `Ready.cycle`: one poll, from one call of the provider to the
    next;
  - `Follows`: the events go with what the run of the workflow records;
  - `long_plan_decreases`: the step counts of that plan.
-/

namespace Forge

open LTS

open MapReduceWorkflow (Action)

namespace Subscription

open SessionManager (SessionInfo Params Call Object)

variable {P : Params} {t id : ℕ} {s s' : State P} {o : Object} {held : List Session} {w : Bool}

/-! ### One Poll -/

/-- The provider may be called, and finds the session. -/
structure Ready (t id : ℕ) (o : Object) (s : State P) : Prop where
  pc : s.pc = .yielded true
  isDone : s.isDone = false
  calls : s.manager.calls t = .idle
  found : s.manager.sessions.find id = some id
  object : s.manager.objects id = some o

/-- In the poll, `get_session` has come to `c`. -/
def polling (s : State P) (t : ℕ) (c : Call) (held : List Session) : State P :=
  { s with pc := .poll, manager := s.manager.setCall t c, held := held }

/-- What `get_session` returns if nothing changes meanwhile. -/
def infoOf (o : Object) : SessionInfo where
  id := o.session.id
  state := o.session.state
  stepCount := o.session.stepCount
  finalAnswer := o.session.finalAnswer
  error := o.session.error

/-- After the poll. -/
def afterPoll (s : State P) (t : ℕ) (o : Object) (held : List Session) : State P where
  toProvider := { s.toProvider with pc := .poll }.observed (some (some (infoOf o)))
  manager := s.manager.setCall t .idle
  held := held

/-- One step in `get_session`. -/
theorem poll_step {c c' : Call}
    (hm : SessionManager.next (s.manager.setCall t c) (.step t) = some (s.manager.setCall t c'))
    (hc : ∀ r, c ≠ .returned r) (held : List Session) : ∃ held',
    next t id (polling s t c held) (.serve w) = some (polling s t c' held') := by
  have hcall : (s.manager.setCall t c).calls t = c := Function.update_self _ _ _
  have hget : getStep t (s.manager.setCall t c) = some (s.manager.setCall t c', none) := by
    unfold getStep
    rw [hcall]
    split
    · next r => exact absurd rfl (hc _)
    · rw [hm]
      rfl
  refine ⟨held ++ ((s.manager.objects id).map Object.session).toList, ?_⟩
  show (getStep t (s.manager.setCall t c)).map _ = _
  rw [hget]
  rfl

/-- The reads of `get_session`, while nothing changes. -/
theorem Ready.reads (h : Ready t id o s) (held : List Session) : ∃ held',
    System.exec (next t id) (polling s t (.lookup id) held) (List.replicate 5 (.serve true)) =
      some (polling s t (.returned (.info (some (infoOf o)))) held') := by
  have hlookup : SessionManager.next (s.manager.setCall t (.lookup id)) (.step t) =
      some (s.manager.setCall t (.readState id)) := by
    simp [SessionManager.next, SessionManager.threadStep, SessionManager.State.setCall, h.found]
  have hstate : SessionManager.next (s.manager.setCall t (.readState id)) (.step t) =
      some (s.manager.setCall t (.readStepCount id o.session.state)) := by
    simp [SessionManager.next, SessionManager.threadStep, SessionManager.State.setCall, h.object]
  have hcount : SessionManager.next
      (s.manager.setCall t (.readStepCount id o.session.state)) (.step t) =
      some (s.manager.setCall t (.readAnswer id o.session.state o.session.stepCount)) := by
    simp [SessionManager.next, SessionManager.threadStep, SessionManager.State.setCall, h.object]
  have hanswer : SessionManager.next
      (s.manager.setCall t (.readAnswer id o.session.state o.session.stepCount)) (.step t) =
      some (s.manager.setCall t
        (.readError id o.session.state o.session.stepCount o.session.finalAnswer)) := by
    simp [SessionManager.next, SessionManager.threadStep, SessionManager.State.setCall, h.object]
  have herror : SessionManager.next (s.manager.setCall t
        (.readError id o.session.state o.session.stepCount o.session.finalAnswer)) (.step t) =
      some (s.manager.setCall t (.returned (.info (some (infoOf o))))) := by
    simp [SessionManager.next, SessionManager.threadStep, SessionManager.State.setCall, h.object,
      infoOf]
  obtain ⟨held₁, h₁⟩ := @poll_step P t id s true _ _ hlookup (by simp) held
  obtain ⟨held₂, h₂⟩ := @poll_step P t id s true _ _ hstate (by simp) held₁
  obtain ⟨held₃, h₃⟩ := @poll_step P t id s true _ _ hcount (by simp) held₂
  obtain ⟨held₄, h₄⟩ := @poll_step P t id s true _ _ hanswer (by simp) held₃
  obtain ⟨held₅, h₅⟩ := @poll_step P t id s true _ _ herror (by simp) held₄
  refine ⟨held₅, ?_⟩
  simp only [List.replicate, System.exec, h₁, h₂, h₃, h₄, h₅, Option.bind_some]

/-- The provider is called, and has polled the session. -/
theorem Ready.poll (h : Ready t id o s) : ∃ held,
    System.exec (next t id) s (List.replicate 7 (.serve true)) = some (afterPoll s t o held) := by
  have hcall : ∃ held, next t id s (.serve true) = some (polling s t (.lookup id) held) := by
    simp [next, serve, h.pc, h.isDone, h.calls, SessionManager.next, SessionManager.callStep,
      polling, State.advance]
  have hret : ∀ held, ∃ held', next t id
      (polling s t (.returned (.info (some (infoOf o)))) held) (.serve true) =
      some (afterPoll s t o held') := by
    intro held
    simp [next, serve, polling, getStep, SessionManager.next, SessionManager.State.setCall,
      State.advance, afterPoll]
  obtain ⟨held₁, h₁⟩ := hcall
  obtain ⟨held₂, h₂⟩ := h.reads held₁
  obtain ⟨held₃, h₃⟩ := hret held₂
  refine ⟨held₃, ?_⟩
  have hlast : System.exec (next t id)
      (polling s t (.returned (.info (some (infoOf o)))) held₂) [.serve true] =
      some (afterPoll s t o held₃) := by
    simp only [System.exec, h₃, Option.bind_some]
  show (next t id s (.serve true)).bind
    (System.exec (next t id) · (List.replicate 5 (.serve true) ++ [.serve true])) = _
  rw [h₁]
  exact (System.exec_append h₂).trans hlast

/-- From one call of the provider to the next: the step count of the session
  has been emitted, if it was not emitted before. -/
theorem Ready.cycle (h : Ready t id o s) (hgoing : o.session.state.terminal = false) : ∃ k s',
    System.exec (next t id) s (List.replicate k (.serve true)) = some s' ∧ Ready t id o s' ∧
      s'.lastStep = o.session.stepCount ∧
      ((s'.events = s.events ∧ s.lastStep = o.session.stepCount) ∨
        s'.events = s.events ++ [.state (infoOf o)]) := by
  obtain ⟨held, hpoll⟩ := h.poll
  by_cases hchanged : (infoOf o).state ≠ s.lastState ∨ (infoOf o).stepCount ≠ s.lastStep
  · obtain ⟨s', hwrite, hs'⟩ : ∃ s', System.exec (next t id) (afterPoll s t o held)
        (List.replicate 2 (.serve true)) = some s' ∧ s'.pc = .yielded true ∧
        s'.isDone = s.isDone ∧ s'.manager = s.manager.setCall t .idle ∧
        s'.lastStep = o.session.stepCount ∧ s'.events = s.events ++ [.state (infoOf o)] := by
      have hnot : (infoOf o).state.terminal = false := hgoing
      simp [System.exec, next, serve, afterPoll, Provider.observed, hchanged, Provider.write,
        Provider.emit, hnot]
      rfl
    obtain ⟨hpc, hdone, hmanager, hlast, hevents⟩ := hs'
    refine ⟨7 + 2, s', ?_, ⟨hpc, hdone.trans h.isDone, ?_, ?_, ?_⟩, hlast, .inr hevents⟩
    · rw [List.replicate_add]
      exact (System.exec_append hpoll).trans hwrite
    · rw [hmanager]
      exact Function.update_self _ _ _
    · rw [hmanager]
      exact h.found
    · rw [hmanager]
      exact h.object
  · obtain ⟨s', hsleep, hs'⟩ : ∃ s', System.exec (next t id) (afterPoll s t o held)
        (List.replicate 1 (.serve true)) = some s' ∧ s'.pc = .yielded true ∧
        s'.isDone = s.isDone ∧ s'.manager = s.manager.setCall t .idle ∧
        s'.lastStep = s.lastStep ∧ s'.events = s.events := by
      simp [System.exec, next, serve, afterPoll, Provider.observed, hchanged, Provider.write]
    obtain ⟨hpc, hdone, hmanager, hlast, hevents⟩ := hs'
    have hsame : s.lastStep = o.session.stepCount := by
      by_contra hne
      exact hchanged (.inr (Ne.symm hne))
    refine ⟨7 + 1, s', ?_, ⟨hpc, hdone.trans h.isDone, ?_, ?_, ?_⟩, hlast.trans hsame,
      .inl ⟨hevents, hsame⟩⟩
    · rw [List.replicate_add]
      exact (System.exec_append hpoll).trans hsleep
    · rw [hmanager]
      exact Function.update_self _ _ _
    · rw [hmanager]
      exact h.found
    · rw [hmanager]
      exact h.object

/-! ### A Run of the Workflow -/

/-- A plan is under way. -/
def runningPlan (w : WorkflowState) : Object := ⟨.planExecute, .running w, true⟩

/-- The task takes a step while the provider is not called. -/
theorem Ready.work {w w' : WorkflowState} {a : Action} (h : Ready t id (runningPlan w) s)
    (hw : w.next P.parse P.reg a = some w') : ∃ s',
    next t id s (.manager (.task id (.work a))) = some s' ∧ Ready t id (runningPlan w') s' ∧
      s'.toProvider = s.toProvider := by
  have hnext : SessionManager.next s.manager (.task id (.work a)) =
      some (s.manager.setObject id (runningPlan w')) := by
    simp [SessionManager.next, h.object, runningPlan, SessionTask.next, hw]
  refine ⟨s.advance id (s.manager.setObject id (runningPlan w')), ?_,
    ⟨h.pc, h.isDone, h.calls, h.found, Function.update_self _ _ _⟩, rfl⟩
  simp [next, hnext, SessionManager.Label.thread]

/-- The events go with what the run of the workflow records. -/
structure Follows (t id : ℕ) (r : WorkflowRun.State) (s : State P) (infos : List SessionInfo) :
    Prop where
  ready : Ready t id (runningPlan r.workflow) s
  outcome : r.workflow.Outcome
  lastStep : s.lastStep = r.workflow.session.stepCount
  events : s.events = infos.map .state
  last : s.lastStep = 0 ∨ s.lastStep ∈ infos.map SessionInfo.stepCount
  sorted : (infos.map SessionInfo.stepCount).Pairwise (· ≤ ·) →
    r.counts.Pairwise (· ≤ ·) ∧ ∀ n ∈ r.counts, n ≤ s.lastStep

variable {r r' : WorkflowRun.State} {infos : List SessionInfo}

/-- After every step of the workflow the provider polls once. -/
theorem Follows.step {a : Action} (h : Follows t id r s infos)
    (hs : WorkflowRun.next P.parse P.reg r (.work a) = some r')
    (hgoing : r'.workflow.session.state.terminal = false) : ∃ ls s' infos',
    System.exec (next t id) s ls = some s' ∧ (∀ l ∈ ls, l.InRange) ∧
      Follows t id r' s' infos' := by
  obtain ⟨w', hw, rfl⟩ := Option.map_eq_some_iff.mp hs
  obtain ⟨s₁, hstep, hready₁, hprovider⟩ := h.ready.work hw
  obtain ⟨k, s₂, hcycle, hready₂, hlast, hevents⟩ := hready₁.cycle hgoing
  have hexec : System.exec (next t id) s
      (.manager (.task id (.work a)) :: List.replicate k (.serve true)) = some s₂ := by
    show (next t id s _).bind _ = _
    rw [hstep]
    exact hcycle
  have hrange : ∀ l ∈ Label.manager (.task id (.work a)) :: List.replicate k (.serve true),
      l.InRange := by
    intro l hl
    rcases List.mem_cons.mp hl with rfl | hl
    · trivial
    · rw [List.eq_of_mem_replicate hl]
      trivial
  have hlast' : s₂.lastStep = w'.session.stepCount := hlast
  have hlast₁ : s₁.lastStep = s.lastStep := congrArg Provider.lastStep hprovider
  have hevents₁ : s₁.events = s.events := congrArg Provider.events hprovider
  rw [hlast₁, hevents₁, h.events] at hevents
  -- a count that is not less than the last one goes behind the others
  have hsorted : (infos.map SessionInfo.stepCount).Pairwise (· ≤ ·) → s.lastStep ≤ s₂.lastStep →
      (r.counts ++ [w'.session.stepCount]).Pairwise (· ≤ ·) ∧
        ∀ n ∈ r.counts ++ [w'.session.stepCount], n ≤ s₂.lastStep := by
    intro hinfos hle
    obtain ⟨hsorted, hbound⟩ := h.sorted hinfos
    rw [← hlast']
    exact pairwise_snoc hsorted fun n hn => (hbound n hn).trans hle
  rcases hevents with ⟨hsame, hold⟩ | hnew
  · have hold' : s.lastStep = s₂.lastStep := hold.trans hlast.symm
    refine ⟨_, s₂, infos, hexec, hrange, hready₂, h.outcome.step hw, hlast', hsame, ?_,
      fun hinfos => hsorted hinfos hold'.le⟩
    rw [← hold']
    exact h.last
  · have hinfo : (infoOf (runningPlan w')).stepCount = s₂.lastStep := hlast.symm
    refine ⟨_, s₂, infos ++ [infoOf (runningPlan w')], hexec, hrange, hready₂, h.outcome.step hw,
      hlast', ?_, .inr ?_, ?_⟩
    · rw [hnew, List.map_append]
      rfl
    · rw [← hinfo]
      simp
    · intro hinfos
      rw [List.map_append, List.pairwise_append] at hinfos
      obtain ⟨hbefore, -, hle⟩ := hinfos
      apply hsorted hbefore
      rcases h.last with hzero | hmem
      · rw [hzero]
        exact Nat.zero_le _
      · rw [← hinfo]
        exact hle _ hmem _ (List.mem_singleton_self _)

theorem outcome_exec {actions : List Action} (ho : r.workflow.Outcome)
    (hexec : System.exec (WorkflowRun.next P.parse P.reg) r (actions.map .work) = some r') :
    r'.workflow.Outcome := by
  apply System.exec_invariant (Q := fun r => r.workflow.Outcome) _ ho hexec
  intro r l r' hl ho hs
  obtain ⟨a, -, rfl⟩ := List.mem_map.mp hl
  obtain ⟨w', hw, rfl⟩ := Option.map_eq_some_iff.mp hs
  exact ho.step hw

/-- An end is not left again. -/
theorem terminal_exec {actions : List Action} (ho : r.workflow.Outcome)
    (hexec : System.exec (WorkflowRun.next P.parse P.reg) r (actions.map .work) = some r')
    (hterm : r.workflow.session.isTerminal) : r'.workflow.session.isTerminal := by
  refine (System.exec_invariant
    (Q := fun r => r.workflow.Outcome ∧ r.workflow.session.isTerminal) ?_ ⟨ho, hterm⟩ hexec).2
  intro r l r' hl hboth hs
  obtain ⟨ho, hterm⟩ := hboth
  obtain ⟨a, -, rfl⟩ := List.mem_map.mp hl
  obtain ⟨w', hw, rfl⟩ := Option.map_eq_some_iff.mp hs
  refine ⟨ho.step hw, ?_⟩
  show w'.session.state.terminal
  rw [(ho.agrees hterm hw).state]
  exact hterm

/-- A part of the run that does not end the session. -/
theorem Follows.exec {actions : List Action} (h : Follows t id r s infos)
    (hexec : System.exec (WorkflowRun.next P.parse P.reg) r (actions.map .work) = some r')
    (hgoing : r'.workflow.session.state.terminal = false) : ∃ ls s' infos',
    System.exec (next t id) s ls = some s' ∧ (∀ l ∈ ls, l.InRange) ∧
      Follows t id r' s' infos' := by
  induction actions generalizing r s infos with
  | nil =>
    obtain rfl : r = r' := Option.some.inj hexec
    exact ⟨[], s, infos, rfl, by simp, h⟩
  | cons a actions ih =>
    obtain ⟨r₁, hstep, hrest⟩ := Option.bind_eq_some_iff.mp hexec
    have hgoing₁ : r₁.workflow.session.state.terminal = false := by
      obtain ⟨w', hw, rfl⟩ := Option.map_eq_some_iff.mp hstep
      by_contra hterm
      have hterm' : w'.session.state.terminal = true := by simpa using hterm
      exact SessionState.not_terminal hgoing (terminal_exec (h.outcome.step hw) hrest hterm')
    obtain ⟨ls₁, s₁, infos₁, hexec₁, hrange₁, h₁⟩ := h.step hstep hgoing₁
    obtain ⟨ls₂, s₂, infos₂, hexec₂, hrange₂, h₂⟩ := ih h₁ hrest
    exact ⟨ls₁ ++ ls₂, s₂, infos₂, (System.exec_append hexec₁).trans hexec₂,
      List.forall_mem_append.mpr ⟨hrange₁, hrange₂⟩, h₂⟩

/-! ### A Plan That Is Too Long -/

/-- A session that is to be planned, and whose plan steps fail at once. -/
def planRequest : CreateSessionRequest where
  prompt := ""
  workflow := "plan-execute"
  config := { maxIterations := 0 }

/-- A manager whose LLM gives a plan of 2^32 steps. -/
def planParams : Params := ⟨1, fun k => k, WorkflowRun.parseSteps (2 ^ 32), ⟨[]⟩⟩

/-- The session is created and subscribed to, and its workflow is started. -/
def planSubscribed : List Label :=
  (SessionManager.Label.call 0 (.create planRequest) :: List.replicate 70 (.step 0)).map .manager ++
    (List.replicate 7 (.serve true) ++ [.manager (.task 1 .task), .manager (.task 1 .task)] :
      List Label)

/-- The session that the workflow is started with. -/
def planSession : Session := { planRequest.newSession 1 0 with state := .waitingForLlm }

theorem planSubscribed_follows : ∃ s,
    System.exec (next 1 1) (initial planParams) planSubscribed = some s ∧
      Follows 1 1 (WorkflowRun.start .planExecute planSession) s [] := by
  have hends : (System.exec (next 1 1) (initial planParams) planSubscribed).map
      (fun s => (s.toProvider, s.manager.calls 1, s.manager.sessions.find 1,
        s.manager.objects 1)) =
      some (⟨.yielded true, .created, 0, false, [], []⟩, .idle, some 1,
        some (runningPlan (.start .planExecute planSession))) := by
    decide +kernel
  obtain ⟨s, hexec, hend⟩ := Option.map_eq_some_iff.mp hends
  simp only [Prod.mk.injEq] at hend
  obtain ⟨hprovider, hcalls, hfound, hobject⟩ := hend
  have houtcome : (WorkflowState.start .planExecute planSession).Outcome :=
    WorkflowState.outcome_start .planExecute rfl ⟨rfl, rfl⟩
  refine ⟨s, hexec, ⟨congrArg Provider.pc hprovider, congrArg Provider.isDone hprovider, hcalls,
    hfound, hobject⟩, houtcome, congrArg Provider.lastStep hprovider,
    congrArg Provider.events hprovider, .inl (congrArg Provider.lastStep hprovider), ?_⟩
  intro _
  refine ⟨List.pairwise_singleton _ _, ?_⟩
  intro n hn
  rw [List.mem_singleton.mp hn]
  exact Nat.zero_le _

/-- Before a plan step the session has not ended. -/
theorem planHead_going {n i : ℕ} {p : PlanExecuteWorkflow.State}
    (ho : WorkflowState.Outcome (.planExecute p)) (h : WorkflowRun.PlanHead n i p) :
    p.session.state.terminal = false := by
  have hall : p.pc.Allows p.session.state := ho.inv
  rw [h.pc] at hall
  exact hall

/-- The run has come to plan step `i`, has counted the step before, and the
  provider has polled it. -/
def AtStep (i : ℕ) : Prop :=
  ∃ ls s r infos p, System.exec (next 1 1) (initial planParams) ls = some s ∧
    (∀ l ∈ ls, l.InRange) ∧ Follows 1 1 r s infos ∧ r.workflow = .planExecute p ∧
    WorkflowRun.PlanHead (2 ^ 32) i p ∧ i % 2 ^ 32 ∈ r.counts ∧
    (0 < i → [(i - 1) % 2 ^ 32, i % 2 ^ 32].Sublist r.counts)

/-- The plan is accepted. -/
theorem atStep_zero : AtStep 0 := by
  obtain ⟨s, hsubscribed, hfollows⟩ := planSubscribed_follows
  obtain ⟨p, stores, counts, hexec, hhead, hmem⟩ :=
    @WorkflowRun.exec_plan planSession (2 ^ 32) (by omega) rfl rfl rfl
  have houtcome : WorkflowState.Outcome (.planExecute p) :=
    @outcome_exec planParams _ _ _ hfollows.outcome hexec
  obtain ⟨ls, s', infos, hpolled, hrange, hfollows'⟩ :=
    hfollows.exec hexec (planHead_going houtcome hhead)
  have hlabels : ∀ l ∈ planSubscribed, l.InRange := by decide +kernel
  exact ⟨planSubscribed ++ ls, s', _, infos, p, (System.exec_append hsubscribed).trans hpolled,
    List.forall_mem_append.mpr ⟨hlabels, hrange⟩, hfollows', rfl, hhead, hmem, by simp⟩

/-- A plan step is counted. -/
theorem AtStep.succ {i : ℕ} (h : AtStep i) (hi : i < 2 ^ 32) : AtStep (i + 1) := by
  obtain ⟨ls, s, ⟨w, stores, counts⟩, infos, p, hls, hrange, hfollows, hw, hhead, hmem, -⟩ := h
  simp only at hw hmem
  subst hw
  obtain ⟨p', stores', tail, hexec, hhead', htail⟩ := hhead.exec hi stores counts
  have houtcome : WorkflowState.Outcome (.planExecute p') :=
    @outcome_exec planParams _ _ _ hfollows.outcome hexec
  obtain ⟨ls', s', infos', hls', hrange', hfollows'⟩ :=
    hfollows.exec hexec (planHead_going houtcome hhead')
  refine ⟨ls ++ ls', s', _, infos', p', (System.exec_append hls).trans hls',
    List.forall_mem_append.mpr ⟨hrange, hrange'⟩, hfollows', rfl, hhead',
    List.mem_append_right _ htail, ?_⟩
  intro _
  exact (List.singleton_sublist.mpr hmem).append (List.singleton_sublist.mpr htail)

/-- The last step of a plan of 2^32 steps starts the counter anew, and the
  subscriber sees it. -/
theorem long_plan_decreases :
    ¬ ∀ (P : Params) (t id : ℕ) (tr : List Label) (s : State P), (system P t id).Run tr s →
      (∀ l ∈ tr, l.InRange) → ∀ (infos : List SessionInfo) (tail : List Event),
        s.events = infos.map .state ++ tail →
        (infos.map SessionInfo.stepCount).Pairwise (· ≤ ·) := by
  intro hall
  have hreach : ∀ i ≤ 2 ^ 32, AtStep i := by
    intro i
    induction i with
    | zero =>
      intro _
      exact atStep_zero
    | succ i ih =>
      intro hle
      exact (ih (by omega)).succ (by omega)
  obtain ⟨ls, s, r, infos, p, hls, hrange, hfollows, -, -, -, hsub⟩ := hreach _ le_rfl
  have hinfos := hall planParams 1 1 ls s (System.run_of_exec hls) hrange infos []
    (hfollows.events.trans (List.append_nil _).symm)
  have hsorted := (hfollows.sorted hinfos).1.sublist (hsub (by omega))
  rw [List.pairwise_pair] at hsorted
  omega

end Subscription

end Forge
